import TreeShake.Proofs.Canonical
import TreeShake.Proofs.Extraction

set_option autoImplicit false

/-!
The record of a body is exact: it holds the edges that the evaluated nodes contribute, each once, and
no others. What a node contributes is said here rule by rule, one rule for each way in which code
depends on something. So neither a forgotten subtree nor a stray edge is possible.
-/

namespace TreeShake

/-! What a node contributes. -/

/-- A type names a class itself or as the class of its innermost elements. -/
inductive Ty.Names : Ty → Name → Prop
  | cls {name} : Names (.cls name) name
  | array {a name} : a.element = .cls name → Names (.array a) name

/-- Where the methods of a value of this type are found. -/
inductive Ty.AnswersIn : Ty → Name → Prop
  | cls {name} : AnswersIn (.cls name) name
  | any : AnswersIn .any Name.object
  | prim {p} : AnswersIn (.prim p) p.boxedClass

inductive Literal.Nonzero : Literal → Prop
  | byte {value} : value ≠ 0 → Nonzero (.byte value)
  | short {value} : value ≠ 0 → Nonzero (.short value)
  | int {value} : value ≠ 0 → Nonzero (.int value)
  | long {value} : value ≠ 0 → Nonzero (.long value)

/-- A division by this divisor may throw. -/
def Expr.MayBeZero (divisor : Expr) : Prop :=
  ∀ value : Literal, divisor.node = .literal value → ¬ value.Nonzero

inductive Edge.Constructs (cls ctor : Name) : Edge → Prop
  | cls : Constructs cls ctor (.instantiate cls)
  | ctor : Constructs cls ctor (.callExact cls ⟨.ctor, ctor⟩)

/-- The edges of a node, apart from those of its type and of its subtrees. -/
inductive Node.Contributes : Node → Edge → Prop
  | declare {name ty mutable value cls} :
      ty.Names cls → Contributes (.declare name ty mutable value) (.mention cls)
  | parameter {params captures body name ty cls} :
      (name, ty) ∈ params → ty.Names cls →
      Contributes (.closure params captures body) (.mention cls)
  | field {object owner name} : Contributes (.field object owner name) (.mention owner)
  | read {owner name} : Contributes (.staticField owner name) (.readField owner name)
  | write {target value owner name} : target.node = .staticField owner name →
      Contributes (.assign target value) (.writeField owner name)
  | call {receiver method arguments cls} : receiver.ty.AnswersIn cls →
      Contributes (.call receiver method arguments) (.call cls method)
  | arrayCall {receiver method arguments a} : receiver.ty = .array a → method ≠ Name.clone →
      Contributes (.call receiver method arguments) (.callExact Name.object ⟨.pub, method⟩)
  | callExact {space receiver owner method arguments} :
      Contributes (.callExact space receiver owner method arguments)
        (.callExact owner ⟨space, method⟩)
  | callStatic {owner method arguments} :
      Contributes (.callStatic owner method arguments) (.callExact owner ⟨.static, method⟩)
  | construct {cls ctor arguments edge} : Edge.Constructs cls ctor edge →
      Contributes (.construct cls ctor arguments) edge
  | divide {op left divisor edge} : op ∈ [BinaryOp.intDiv, .intRem, .longDiv, .longRem] →
      divisor.MayBeZero → Edge.Constructs Name.arithmeticException Name.messageConstructor edge →
      Contributes (.binary op left divisor) edge
  | loadModule {cls} : Contributes (.loadModule cls) (.loadModule cls)
  | isInstance {value target cls} : target.toTy.Names cls →
      Contributes (.isInstance value target) (.testInstance cls)
  | cast {value target cls} : target.toTy.Names cls →
      Contributes (.cast value target) (.testInstance cls)
  | newArray {type lengths cls} : (Ty.array type).Names cls →
      Contributes (.newArray type lengths) (.classData cls)
  | arrayOf {type elements cls} : (Ty.array type).Names cls →
      Contributes (.arrayOf type elements) (.classData cls)
  | classLiteral {target cls} : target.toTy.Names cls →
      Contributes (.literal (.classOf target)) (.classData cls)
  | hostGlobal {name} : Contributes (.hostGlobal name) (.hostGlobal name)

/-- The edges of a tree's root. The type of a transient node names nothing. -/
inductive Expr.Contributes (e : Expr) : Edge → Prop
  | ty {cls} : (∀ name arguments, e.node ≠ .transient name arguments) → e.ty.Names cls →
      Contributes e (.mention cls)
  | node {edge} : e.node.Contributes edge → Contributes e edge

/-! What is extracted from a node. -/

theorem Ty.className?_eq_some_iff {ty : Ty} {cls : Name} :
    ty.className? = some cls ↔ ty.Names cls := by
  constructor
  · intro named
    cases ty with
    | cls name =>
      obtain rfl := Option.some.inj named
      exact .cls
    | array a =>
      obtain ⟨element, dimensions, positive⟩ := a
      cases element with
      | prim p => cases named
      | cls name =>
        obtain rfl := Option.some.inj named
        exact .array rfl
    | any | nothing | null | noValue | prim | record => cases named
  · intro names
    cases names with
    | cls => rfl
    | array element => rw [className?, ArrayType.className?, element, ElementType.className?]

theorem TypeRef.className?_toTy (target : TypeRef) : target.toTy.className? = target.className? := by
  cases target <;> rfl

theorem Ty.mem_edges {ty : Ty} {edge : Edge} :
    edge ∈ ty.edges ↔ ∃ cls, ty.Names cls ∧ .mention cls = edge := by
  simp [edges, className?_eq_some_iff]

theorem TypeRef.mem_testEdges {target : TypeRef} {edge : Edge} :
    edge ∈ target.testEdges ↔ ∃ cls, target.toTy.Names cls ∧ .testInstance cls = edge := by
  simp [testEdges, ← className?_toTy, Ty.className?_eq_some_iff]

theorem TypeRef.mem_dataEdges {target : TypeRef} {edge : Edge} :
    edge ∈ target.dataEdges ↔ ∃ cls, target.toTy.Names cls ∧ .classData cls = edge := by
  simp [dataEdges, ← className?_toTy, Ty.className?_eq_some_iff]

theorem Edge.mem_construction {cls ctor : Name} {edge : Edge} :
    edge ∈ construction cls ctor ↔ Constructs cls ctor edge := by
  simp only [construction, List.mem_cons, List.not_mem_nil, or_false]
  constructor
  · rintro (rfl | rfl)
    · exact .cls
    · exact .ctor
  · rintro (_ | _)
    · exact .inl rfl
    · exact .inr rfl

theorem Literal.isNonzeroIntegral_iff {value : Literal} :
    value.isNonzeroIntegral = true ↔ value.Nonzero := by
  constructor
  · intro nonzero
    cases value with
    | byte v => exact .byte (by simpa [isNonzeroIntegral] using nonzero)
    | short v => exact .short (by simpa [isNonzeroIntegral] using nonzero)
    | int v => exact .int (by simpa [isNonzeroIntegral] using nonzero)
    | long v => exact .long (by simpa [isNonzeroIntegral] using nonzero)
    | undefined | null | boolean | char | float | double | string | classOf => cases nonzero
  · rintro (nonzero | nonzero | nonzero | nonzero) <;> simpa [isNonzeroIntegral] using nonzero

theorem Expr.isNonzeroIntegral_eq_false_iff {divisor : Expr} :
    divisor.isNonzeroIntegral = false ↔ divisor.MayBeZero := by
  unfold isNonzeroIntegral MayBeZero
  split
  · next value found =>
    rw [← Bool.not_eq_true, Literal.isNonzeroIntegral_iff]
    simp [found]
  · next other => exact ⟨fun _ value found => absurd found (other value), fun _ => rfl⟩

theorem BinaryOp.isIntegralDivision_iff {op : BinaryOp} :
    op.isIntegralDivision = true ↔ op ∈ [intDiv, intRem, longDiv, longRem] := by
  cases op <;> decide

theorem Ty.mem_callEdges {receiver : Ty} {method : Name} {edges : List Edge} {edge : Edge}
    (done : receiver.callEdges method = .ok edges) :
    edge ∈ edges ↔ (∃ cls, receiver.AnswersIn cls ∧ .call cls method = edge) ∨
      ∃ a, receiver = .array a ∧ method ≠ Name.clone ∧
        .callExact Name.object ⟨.pub, method⟩ = edge := by
  cases receiver with
  | cls | any | prim =>
    obtain rfl := Except.ok.inj done
    constructor
    · intro member
      exact .inl ⟨_, by constructor, (List.mem_singleton.mp member).symm⟩
    · rintro (⟨_, ⟨⟩, rfl⟩ | ⟨_, ⟨⟩, _⟩)
      exact List.mem_singleton_self _
  | array a =>
    rw [callEdges] at done
    by_cases clones : method = Name.clone
    · rw [if_pos clones] at done
      obtain rfl := Except.ok.inj done
      constructor
      · nofun
      · rintro (⟨_, ⟨⟩, _⟩ | ⟨_, _, other, _⟩)
        exact absurd clones other
    · rw [if_neg clones] at done
      obtain rfl := Except.ok.inj done
      constructor
      · intro member
        exact .inr ⟨a, rfl, clones, (List.mem_singleton.mp member).symm⟩
      · rintro (⟨_, ⟨⟩, _⟩ | ⟨_, _, _, rfl⟩)
        exact List.mem_singleton_self _
  | nothing | null =>
    obtain rfl := Except.ok.inj done
    constructor
    · nofun
    · rintro (⟨_, ⟨⟩, _⟩ | ⟨_, ⟨⟩, _⟩)
  | noValue | record => cases done

theorem Node.mem_edges {node : Node} {found : List Edge} {edge : Edge}
    (done : node.edges = .ok found) : edge ∈ found ↔ node.Contributes edge := by
  cases node with
  | field | staticField | callExact | callStatic | loadModule | hostGlobal =>
    obtain rfl := Except.ok.inj done
    rw [List.mem_singleton]
    constructor
    · rintro rfl
      constructor
    · rintro ⟨⟩
      rfl
  | declare name ty mutable value =>
    obtain rfl := Except.ok.inj done
    rw [Ty.mem_edges]
    constructor
    · rintro ⟨cls, names, rfl⟩
      exact .declare names
    · intro contributes
      cases contributes with
      | declare names => exact ⟨_, names, rfl⟩
  | closure params captures body =>
    obtain rfl := Except.ok.inj done
    simp only [List.mem_flatMap, Ty.mem_edges]
    constructor
    · rintro ⟨⟨name, ty⟩, member, cls, names, rfl⟩
      exact .parameter member names
    · intro contributes
      cases contributes with
      | parameter member names => exact ⟨_, member, _, names, rfl⟩
  | isInstance | cast =>
    obtain rfl := Except.ok.inj done
    rw [TypeRef.mem_testEdges]
    constructor
    · rintro ⟨cls, names, rfl⟩
      constructor
      exact names
    · intro contributes
      cases contributes
      next names => exact ⟨_, names, rfl⟩
  | newArray | arrayOf =>
    obtain rfl := Except.ok.inj done
    rw [TypeRef.mem_dataEdges]
    constructor
    · rintro ⟨cls, names, rfl⟩
      constructor
      exact names
    · intro contributes
      cases contributes
      next names => exact ⟨_, names, rfl⟩
  | literal value =>
    cases value with
    | classOf target =>
      obtain rfl := Except.ok.inj done
      rw [TypeRef.mem_dataEdges]
      constructor
      · rintro ⟨cls, names, rfl⟩
        exact .classLiteral names
      · intro contributes
        cases contributes with
        | classLiteral names => exact ⟨_, names, rfl⟩
    | _ =>
      obtain rfl := Except.ok.inj done
      exact ⟨nofun, nofun⟩
  | assign target value =>
    obtain ⟨inner, ty⟩ := target
    cases inner with
    | staticField owner name =>
      obtain rfl := Except.ok.inj done
      rw [List.mem_singleton]
      constructor
      · rintro rfl
        exact .write rfl
      · intro contributes
        cases contributes with
        | write static =>
          obtain ⟨rfl, rfl⟩ := Node.staticField.inj static
          rfl
    | _ =>
      obtain rfl := Except.ok.inj done
      constructor
      · nofun
      · intro contributes
        cases contributes with
        | write static => cases static
  | construct cls ctor arguments =>
    obtain rfl := Except.ok.inj done
    rw [Edge.mem_construction]
    constructor
    · exact .construct
    · intro contributes
      cases contributes with
      | construct constructs => exact constructs
  | binary op left divisor =>
    simp only [edges] at done
    split at done
    · next throws =>
      rw [Bool.and_eq_true, Bool.not_eq_true', BinaryOp.isIntegralDivision_iff,
        Expr.isNonzeroIntegral_eq_false_iff] at throws
      obtain rfl := Except.ok.inj done
      rw [Edge.arithmeticException, Edge.mem_construction]
      constructor
      · exact .divide throws.1 throws.2
      · intro contributes
        cases contributes with
        | divide _ _ constructs => exact constructs
    · next safe =>
      rw [Bool.and_eq_true, Bool.not_eq_true', BinaryOp.isIntegralDivision_iff,
        Expr.isNonzeroIntegral_eq_false_iff] at safe
      obtain rfl := Except.ok.inj done
      constructor
      · nofun
      · intro contributes
        cases contributes with
        | divide divides zero => exact absurd ⟨divides, zero⟩ safe
  | call receiver method arguments =>
    rw [Ty.mem_callEdges done]
    constructor
    · rintro (⟨cls, answers, rfl⟩ | ⟨a, array, other, rfl⟩)
      · exact .call answers
      · exact .arrayCall array other
    · intro contributes
      cases contributes with
      | call answers => exact .inl ⟨_, answers, rfl⟩
      | arrayCall array other => exact .inr ⟨_, array, other, rfl⟩
  | _ =>
    obtain rfl := Except.ok.inj done
    exact ⟨nofun, nofun⟩

theorem Expr.mem_ownEdges {e : Expr} {found : List Edge} {edge : Edge}
    (done : e.ownEdges = .ok found) : edge ∈ found ↔ e.Contributes edge := by
  unfold ownEdges at done
  split at done
  · next name arguments transient =>
    obtain rfl := Except.ok.inj done
    constructor
    · nofun
    · intro contributes
      cases contributes with
      | ty other => exact absurd transient (other name arguments)
      | node contributes =>
        rw [transient] at contributes
        cases contributes
  · next other =>
    obtain ⟨own, extracted, rfl⟩ := map_eq_ok done
    rw [List.mem_append, Ty.mem_edges, Node.mem_edges extracted]
    constructor
    · rintro (⟨cls, names, rfl⟩ | contributes)
      · exact .ty other names
      · exact .node contributes
    · intro contributes
      cases contributes with
      | ty _ names => exact .inl ⟨_, names, rfl⟩
      | node contributes => exact .inr contributes

theorem Expr.mem_edges {body : Expr} {found : List Edge} {edge : Edge}
    (done : body.edges = .ok found) :
    edge ∈ found ↔ ∃ e, body.Occurs e ∧ e.Contributes edge := by
  obtain ⟨lists, each, rfl⟩ := map_eq_ok done
  rw [List.mem_flatten]
  constructor
  · rintro ⟨own, listed, member⟩
    obtain ⟨e, read, extracted⟩ := exists_mem_of_mapM each listed
    exact ⟨e, mem_nodes_iff.mp read, (mem_ownEdges extracted).mp member⟩
  · rintro ⟨e, occurs, contributes⟩
    obtain ⟨own, listed, extracted⟩ := exists_of_mapM each (mem_nodes_iff.mpr occurs)
    exact ⟨own, listed, (mem_ownEdges extracted).mpr contributes⟩

/-- The record of a body is canonical, and it holds exactly what the evaluated nodes contribute. -/
theorem Expr.mem_dependencies_iff {body : Expr} {d : Dependencies}
    (extracted : body.dependencies = .ok d) :
    d.Canonical ∧ ∀ edge, edge ∈ d ↔ ∃ e, body.Occurs e ∧ e.Contributes edge := by
  obtain ⟨found, done, rfl⟩ := map_eq_ok extracted
  refine ⟨Dependencies.canonical_ofEdges found, fun edge => ?_⟩
  rw [Dependencies.mem_ofEdges, mem_edges done]

/-- A block that assigns the result of a call on an array to a static field, divides another static
field by zero, and has a marker with a module in it. -/
def mixedBody : Expr :=
  ⟨.block
    [⟨.assign ⟨.staticField ⟨20⟩ ⟨30⟩, .cls ⟨21⟩⟩
        ⟨.call ⟨.variable ⟨40⟩, .array ⟨.cls ⟨22⟩, 1, by decide⟩⟩ ⟨31⟩ [], .any⟩, .noValue⟩,
     ⟨.binary .intDiv ⟨.staticField ⟨23⟩ ⟨32⟩, .prim .int⟩ ⟨.literal (.int 0), .prim .int⟩,
        .prim .int⟩,
     ⟨.transient ⟨41⟩ [⟨.loadModule ⟨24⟩, .cls ⟨24⟩⟩], .cls ⟨25⟩⟩], .noValue⟩

-- Neither the type of the field that is written nor that of the marker is mentioned.
theorem mem_dependencies_mixedBody :
    let d : Dependencies :=
      { reads := [(⟨23⟩, [⟨32⟩])]
        writes := [(⟨20⟩, [⟨30⟩])]
        exactCalls := [(Name.object, [.method ⟨31⟩]),
          (Name.arithmeticException, [.ctor Name.messageConstructor])]
        instantiated := [Name.arithmeticException]
        modules := [⟨24⟩]
        mentioned := [⟨22⟩, ⟨24⟩] }
    mixedBody.dependencies = .ok d ∧ d.Canonical ∧
      ∀ edge, edge ∈ d ↔ ∃ e, mixedBody.Occurs e ∧ e.Contributes edge := by
  intro d
  have extracted : mixedBody.dependencies = .ok d := by with_unfolding_all rfl
  exact ⟨extracted, mixedBody.mem_dependencies_iff extracted⟩

end TreeShake
