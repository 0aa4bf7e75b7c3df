import TreeShake.Expr.Basic

set_option autoImplicit false

/-!
The nodes of a tree in the order in which they are read: a node before its parts, and the parts from
left to right. A static field that is assigned to is written, not read, so it is no part of the
assignment.

The traversal keeps the trees that are still to be read in a list, so its depth does not depend on
the depth of the tree.
-/

namespace TreeShake.Expr

/-- The subtrees that are read after the node itself. -/
def parts (e : Expr) : List Expr :=
  match e.node with
  | .skip | .self | .literal _ | .variable _ | .loadModule _ | .staticField .. | .hostGlobal _ => []
  | .block statements => statements
  | .declare _ _ _ value => [value]
  | .assign ⟨.staticField .., _⟩ value => [value]
  | .assign target value => [target, value]
  | .branch condition onTrue onFalse => [condition, onTrue, onFalse]
  | .loop condition body => [condition, body]
  | .leave value => [value]
  | .throw exception => [exception]
  | .tryCatch body _ handler => [body, handler]
  | .tryFinally body finalizer => [body, finalizer]
  | .construct _ _ arguments => arguments
  | .field object _ _ => [object]
  | .call receiver _ arguments => receiver :: arguments
  | .callExact _ receiver _ _ arguments => receiver :: arguments
  | .callStatic _ _ arguments => arguments
  | .unary _ operand => [operand]
  | .binary _ left right => [left, right]
  | .newArray _ lengths => lengths
  | .arrayOf _ elements => elements
  | .arrayLength array => [array]
  | .arrayElement array index => [array, index]
  | .record values => values
  | .isInstance value _ => [value]
  | .cast value _ => [value]
  | .classOf value => [value]
  | .closure _ captures body => captures ++ [body]
  | .hostCall target arguments => target :: arguments
  | .transient _ arguments => arguments

theorem sizeOf_append {α : Type} [SizeOf α] (first second : List α) :
    sizeOf (first ++ second) + 1 = sizeOf first + sizeOf second := by
  induction first with
  | nil => simp; omega
  | cons head rest ih => simp; omega

theorem sizeOf_parts (e : Expr) : sizeOf e.parts ≤ sizeOf e + 1 := by
  obtain ⟨node, ty⟩ := e
  have positive : 0 < sizeOf ty := Nat.pos_of_ne_zero (by cases ty <;> simp)
  unfold parts
  split <;> simp_all <;> try omega
  next captures body _ =>
    have joined := sizeOf_append captures [body]
    simp at joined
    omega

/-- The nodes of the pending trees, after those already seen (the last one first). -/
def nodesFrom (seen : List Expr) : List Expr → List Expr
  | [] => seen.reverse
  | e :: pending => nodesFrom (e :: seen) (e.parts ++ pending)
termination_by pending => sizeOf pending
decreasing_by
  have parts := sizeOf_parts e
  have joined := sizeOf_append e.parts pending
  simp
  omega

def nodes (e : Expr) : List Expr := nodesFrom [] [e]

theorem nodesFrom_append (seen earlier pending : List Expr) :
    nodesFrom (seen ++ earlier) pending = earlier.reverse ++ nodesFrom seen pending := by
  fun_induction nodesFrom seen pending with
  | case1 => simp [nodesFrom]
  | case2 seen e pending ih => rw [nodesFrom, ← ih, List.cons_append]

theorem nodesFrom_eq (seen pending : List Expr) :
    nodesFrom seen pending = seen.reverse ++ nodesFrom [] pending :=
  nodesFrom_append [] seen pending

/-- A node comes first, then its parts, then what was pending. -/
theorem nodesFrom_cons (e : Expr) (pending : List Expr) :
    nodesFrom [] (e :: pending) = e :: nodesFrom [] (e.parts ++ pending) := by
  rw [nodesFrom, nodesFrom_eq]
  rfl

end TreeShake.Expr
