import TreeShake.Expr.Traversal

set_option autoImplicit false

/-!
The nodes of a body that are evaluated: the body itself, and with a node all its direct subtrees, but
for a static field on the left of an assignment. The traversal reads these and no others.
-/

namespace TreeShake

/-- The direct subtrees of a node. -/
def Node.children : Node → List Expr
  | .skip | .self | .literal _ | .variable _ | .loadModule _ | .staticField .. | .hostGlobal _ => []
  | .declare _ _ _ value | .leave value | .isInstance value _ | .cast value _ | .classOf value =>
    [value]
  | .throw operand | .field operand _ _ | .unary _ operand | .arrayLength operand => [operand]
  | .assign left right | .binary _ left right => [left, right]
  | .arrayElement array index => [array, index]
  | .branch condition onTrue onFalse => [condition, onTrue, onFalse]
  | .loop condition body => [condition, body]
  | .tryCatch body _ handler => [body, handler]
  | .tryFinally body finalizer => [body, finalizer]
  | .block entries | .record entries | .arrayOf _ entries | .newArray _ entries => entries
  | .construct _ _ arguments | .callStatic _ _ arguments | .transient _ arguments => arguments
  | .call receiver _ arguments | .callExact _ receiver _ _ arguments => receiver :: arguments
  | .hostCall target arguments => target :: arguments
  | .closure _ captures body => captures ++ [body]

namespace Expr

/-- A node of the body that is evaluated. -/
inductive Occurs (body : Expr) : Expr → Prop
  | root : Occurs body body
  | child {e sub} : Occurs body e → (∀ target value, e.node ≠ .assign target value) →
      sub ∈ e.node.children → Occurs body sub
  | value {e target value} : Occurs body e → e.node = .assign target value → Occurs body value
  | target {e target value} : Occurs body e → e.node = .assign target value →
      (∀ owner name, target.node ≠ .staticField owner name) → Occurs body target

/-- The traversal keeps what it has seen, reads what is pending, and reads the parts of all that it
has not seen before. -/
theorem nodesFrom_closed (seen pending : List Expr) :
    seen ⊆ nodesFrom seen pending ∧ pending ⊆ nodesFrom seen pending ∧
      ∀ e ∈ nodesFrom seen pending, e ∈ seen ∨ e.parts ⊆ nodesFrom seen pending := by
  fun_induction nodesFrom seen pending with
  | case1 seen => exact ⟨by simp, by simp, fun e member => .inl (List.mem_reverse.mp member)⟩
  | case2 seen e pending ih =>
    obtain ⟨kept, read, closed⟩ := ih
    refine ⟨fun x member => kept (List.mem_cons_of_mem _ member), ?_, ?_⟩
    · intro x member
      rcases List.mem_cons.mp member with rfl | member
      · exact kept List.mem_cons_self
      · exact read (List.mem_append_right _ member)
    · intro x member
      rcases closed x member with before | parts
      · rcases List.mem_cons.mp before with rfl | before
        · exact .inr fun sub part => read (List.mem_append_left _ part)
        · exact .inl before
      · exact .inr parts

theorem mem_nodes_self (e : Expr) : e ∈ e.nodes :=
  (nodesFrom_closed [] [e]).2.1 List.mem_cons_self

theorem mem_nodes_of_mem_parts {body e sub : Expr} (member : e ∈ body.nodes) (part : sub ∈ e.parts) :
    sub ∈ body.nodes := by
  rcases (nodesFrom_closed [] [body]).2.2 e member with before | parts
  · exact absurd before List.not_mem_nil
  · exact parts part

theorem mem_parts_of_mem_children {e sub : Expr}
    (other : ∀ target value, e.node ≠ .assign target value) (child : sub ∈ e.node.children) :
    sub ∈ e.parts := by
  obtain ⟨node, ty⟩ := e
  cases node with
  | assign target value => exact absurd rfl (other target value)
  | _ => exact child

theorem value_mem_parts {e target value : Expr} (assigns : e.node = .assign target value) :
    value ∈ e.parts := by
  obtain ⟨node, ty⟩ := e
  obtain rfl : node = .assign target value := assigns
  unfold parts
  split <;> simp_all

theorem target_mem_parts {e target value : Expr} (assigns : e.node = .assign target value)
    (other : ∀ owner name, target.node ≠ .staticField owner name) : target ∈ e.parts := by
  obtain ⟨node, ty⟩ := e
  obtain rfl : node = .assign target value := assigns
  obtain ⟨inner, innerTy⟩ := target
  cases inner with
  | staticField owner name => exact absurd rfl (other owner name)
  | _ => exact List.mem_cons_self

/-- The traversal reads every node that is evaluated. -/
theorem Occurs.mem_nodes {body e : Expr} (occurs : body.Occurs e) : e ∈ body.nodes := by
  induction occurs with
  | root => exact mem_nodes_self body
  | child _ other child ih => exact mem_nodes_of_mem_parts ih (mem_parts_of_mem_children other child)
  | value _ assigns ih => exact mem_nodes_of_mem_parts ih (value_mem_parts assigns)
  | target _ assigns other ih => exact mem_nodes_of_mem_parts ih (target_mem_parts assigns other)

theorem Occurs.part {body e sub : Expr} (occurs : body.Occurs e) (part : sub ∈ e.parts) :
    body.Occurs sub := by
  obtain ⟨node, ty⟩ := e
  cases node with
  | assign target value =>
    obtain ⟨inner, innerTy⟩ := target
    cases inner with
    | staticField owner name =>
      obtain rfl := List.mem_singleton.mp part
      exact occurs.value rfl
    | _ =>
      rcases List.mem_cons.mp part with rfl | part
      · exact occurs.target rfl nofun
      · obtain rfl := List.mem_singleton.mp part
        exact occurs.value rfl
  | _ => exact occurs.child nofun part

/-- What holds of the trees at hand, and with a tree of all its parts, holds of all that is read. -/
theorem forall_mem_nodesFrom {holds : Expr → Prop}
    (parts : ∀ e, holds e → ∀ sub ∈ e.parts, holds sub) (seen pending : List Expr)
    (before : ∀ e ∈ seen, holds e) (ahead : ∀ e ∈ pending, holds e) :
    ∀ e ∈ nodesFrom seen pending, holds e := by
  fun_induction nodesFrom seen pending with
  | case1 seen => exact fun e member => before e (List.mem_reverse.mp member)
  | case2 seen e pending ih =>
    obtain ⟨first, later⟩ := List.forall_mem_cons.mp ahead
    apply ih
    · exact List.forall_mem_cons.mpr ⟨first, before⟩
    · exact List.forall_mem_append.mpr ⟨parts e first, later⟩

/-- The traversal reads exactly the nodes that are evaluated. -/
theorem mem_nodes_iff {body e : Expr} : e ∈ body.nodes ↔ body.Occurs e := by
  constructor
  · intro member
    refine @forall_mem_nodesFrom body.Occurs ?_ [] [body] ?_ ?_ e member
    · exact fun e occurs sub => occurs.part
    · exact fun e member => absurd member List.not_mem_nil
    · exact fun e member => List.mem_singleton.mp member ▸ .root
  · exact Occurs.mem_nodes

end Expr

end TreeShake
