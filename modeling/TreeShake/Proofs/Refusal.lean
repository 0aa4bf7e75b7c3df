import TreeShake.Link
import TreeShake.Proofs.Extraction

set_option autoImplicit false

/-!
When definitions are refused, and which fault is named. A body is refused if it contains a virtual
call on a receiver whose type has no methods, at whatever position. Of several such calls the fault
names the one that is read first, in the first body of the first unit that has one. So the fault is
a function of the definitions, not of the way in which they are traversed.

Positions in a tree say how to get there from the root. A node is read before all that is below it,
and what is below one child before what is below a later one.
-/

namespace TreeShake

/-! Calls that are refused, and their positions. -/

/-- The types whose values have no methods. -/
inductive Ty.Methodless : Ty → Prop
  | noValue : Methodless .noValue
  | record {fields} : Methodless (.record fields)

/-- A virtual call that is refused, and how the fault describes it. -/
inductive Node.Refused : Node → CallFault → Prop
  | call {receiver method arguments} : receiver.ty.Methodless →
      Refused (.call receiver method arguments) ⟨receiver.ty, method, []⟩

theorem Node.Refused.context {node : Node} {fault : CallFault} (refused : node.Refused fault) :
    fault.context = [] := by
  cases refused
  rfl

theorem Node.Refused.unique {node : Node} {first second : CallFault} (one : node.Refused first)
    (other : node.Refused second) : first = second := by
  cases one
  cases other
  rfl

/-- The order in which positions are read. -/
inductive ReadBefore : List Nat → List Nat → Prop
  | above {i path} : ReadBefore [] (i :: path)
  | left {i j first second} : i < j → ReadBefore (i :: first) (j :: second)
  | inside {i first second} : ReadBefore first second → ReadBefore (i :: first) (i :: second)

theorem ReadBefore.total (first second : List Nat) :
    first = second ∨ ReadBefore first second ∨ ReadBefore second first := by
  induction first generalizing second with
  | nil =>
    cases second with
    | nil => exact .inl rfl
    | cons j second => exact .inr (.inl .above)
  | cons i first ih =>
    cases second with
    | nil => exact .inr (.inr .above)
    | cons j second =>
      rcases Nat.lt_trichotomy i j with lower | rfl | higher
      · exact .inr (.inl (.left lower))
      · rcases ih second with rfl | before | after
        · exact .inl rfl
        · exact .inr (.inl (.inside before))
        · exact .inr (.inr (.inside after))
      · exact .inr (.inr (.left higher))

namespace Expr

/-- The subtree at a position: which child to take at each node on the way down. -/
def at? (e : Expr) : List Nat → Option Expr
  | [] => some e
  | i :: path => e.node.children[i]?.bind fun child => child.at? path

/-- No call in the tree is refused. -/
def Sound (body : Expr) : Prop :=
  ∀ path e fault, body.at? path = some e → ¬ e.node.Refused fault

/-- The refused call that is read first. -/
def FirstRefused (body : Expr) (fault : CallFault) : Prop :=
  ∃ path e, body.at? path = some e ∧ e.node.Refused fault ∧
    ∀ earlier sub other, ReadBefore earlier path → body.at? earlier = some sub →
      ¬ sub.node.Refused other

end Expr

/-! Bodies under the selectors of their members, in the order of the definitions. -/

def MethodDef.bodies (m : MethodDef) : List (Selector × Expr) :=
  m.body.toList.map fun body => (m.selector, body)

def PropertyDef.bodies (p : PropertyDef) : List (Selector × Expr) :=
  p.getter.toList.map (fun body => (p.selector, body)) ++
    p.setter.toList.map fun setter => (p.selector, setter.body)

def ExportDef.bodies (e : ExportDef) : List (Selector × Expr) :=
  match e.target with
  | .function body => [(.topLevelExports, body)]
  | .field _ | .moduleAccessor => []

namespace UnitDef

def bodies (u : UnitDef) : List (Selector × Expr) :=
  u.methods.flatMap MethodDef.bodies ++ u.properties.flatMap PropertyDef.bodies ++
    u.exports.flatMap ExportDef.bodies

theorem mem_bodies_iff {u : UnitDef} {selector : Selector} {body : Expr} :
    (selector, body) ∈ u.bodies ↔ u.HasBody selector body := by
  simp only [bodies, MethodDef.bodies, PropertyDef.bodies, List.mem_append, List.mem_flatMap,
    List.mem_map, Option.mem_toList, Prod.mk.injEq]
  constructor
  · rintro ((⟨m, member, _, found, rfl, rfl⟩ | ⟨p, member, getter | setter⟩) | ⟨e, member, found⟩)
    · exact .method member found
    · obtain ⟨_, found, rfl, rfl⟩ := getter
      exact .getter member found
    · obtain ⟨_, found, rfl, rfl⟩ := setter
      exact .setter member found
    · unfold ExportDef.bodies at found
      split at found
      · next function =>
        obtain ⟨rfl, rfl⟩ := Prod.mk.inj (List.mem_singleton.mp found)
        exact .topLevel member function
      · cases found
      · cases found
  · intro hasBody
    cases hasBody with
    | method member found => exact .inl (.inl ⟨_, member, _, found, rfl, rfl⟩)
    | getter member found => exact .inl (.inr ⟨_, member, .inl ⟨_, found, rfl, rfl⟩⟩)
    | setter member found => exact .inl (.inr ⟨_, member, .inr ⟨_, found, rfl, rfl⟩⟩)
    | topLevel member function => exact .inr ⟨_, member, by simp [ExportDef.bodies, function]⟩

def Sound (u : UnitDef) : Prop :=
  ∀ selector body, u.HasBody selector body → body.Sound

/-- The first body with a refused call, and the call in it that is read first. -/
def FirstRefused (u : UnitDef) (selector : Selector) (fault : CallFault) : Prop :=
  ∃ before body after, u.bodies = before ++ (selector, body) :: after ∧
    (∀ earlier ∈ before, earlier.2.Sound) ∧ body.FirstRefused fault

end UnitDef

/-- The fault names the first unit that is not sound, and in it the first body and the first call. -/
def UnitFault.IsFirst (fault : UnitFault) (units : List UnitDef) : Prop :=
  ∃ before u after selector, units = before ++ u :: after ∧ (∀ earlier ∈ before, earlier.Sound) ∧
    fault.unit = u.name ∧ fault.cause.context = [selector] ∧
    u.FirstRefused selector fault.cause.rootCause

/-! The fault of a computation. -/

section Faults

variable {ε α β : Type}

def fault? : Except ε α → Option ε
  | .ok _ => none
  | .error fault => some fault

theorem fault?_eq_some_iff {result : Except ε α} {fault : ε} :
    fault? result = some fault ↔ result = .error fault := by
  cases result <;> simp [fault?]

theorem fault?_eq_none_iff {result : Except ε α} :
    fault? result = none ↔ ∃ a, result = .ok a := by
  cases result <;> simp [fault?]

@[simp] theorem fault?_ok (a : α) : fault? (.ok a : Except ε α) = none := rfl

@[simp] theorem fault?_pure (a : α) : fault? (pure a : Except ε α) = none := rfl

@[simp] theorem fault?_map (result : Except ε α) (f : α → β) :
    fault? (result.map f) = fault? result := by
  cases result <;> rfl

@[simp] theorem fault?_mapError {δ : Type} (result : Except ε α) (f : ε → δ) :
    fault? (result.mapError f) = (fault? result).map f := by
  cases result <;> rfl

/-- Of two computations in sequence the first one that fails is to blame. -/
theorem fault?_bind {result : Except ε α} {next : α → Except ε β} {later : Option ε}
    (same : ∀ a, fault? (next a) = later) :
    fault? (result >>= next) = (fault? result).or later := by
  cases result with
  | error fault => rfl
  | ok a => exact same a

theorem fault?_bind_pure (result : Except ε α) (f : α → β) :
    fault? (result >>= fun a => pure (f a)) = fault? result := by
  rw [fault?_bind fun _ => fault?_pure _, Option.or_none]

theorem fault?_mapM (f : α → Except ε β) (entries : List α) :
    fault? (entries.mapM f) = entries.findSome? fun a => fault? (f a) := by
  induction entries with
  | nil => rfl
  | cons first rest ih =>
    rw [List.mapM_cons, List.findSome?_cons,
      fault?_bind fun _ => fault?_bind_pure .., ih]
    cases fault? (f first) <;> rfl

theorem findSome?_flatMap {γ : Type} (f : β → Option γ) (branches : α → List β) (entries : List α) :
    (entries.flatMap branches).findSome? f =
      entries.findSome? fun a => (branches a).findSome? f := by
  induction entries with
  | nil => rfl
  | cons first rest ih =>
    rw [List.flatMap_cons, List.findSome?_append, List.findSome?_cons, ih]
    cases (branches first).findSome? f <;> rfl

end Faults

/-! The fault of a body. -/

theorem Ty.fault?_callEdges {receiver : Ty} {method : Name} {fault : CallFault} :
    fault? (receiver.callEdges method) = some fault ↔
      receiver.Methodless ∧ fault = ⟨receiver, method, []⟩ := by
  cases receiver with
  | noValue => simp [callEdges, fault?, Methodless.noValue, eq_comm]
  | record fields => simp [callEdges, fault?, Methodless.record, eq_comm]
  | array a =>
    have known : fault? ((Ty.array a).callEdges method) = none := by
      rw [callEdges]
      split <;> rfl
    rw [known]
    exact ⟨nofun, fun refused => nomatch refused.1⟩
  | any | nothing | null | prim | cls => exact ⟨nofun, fun refused => nomatch refused.1⟩

theorem Node.fault?_edges {node : Node} {fault : CallFault} :
    fault? node.edges = some fault ↔ node.Refused fault := by
  cases node with
  | call receiver method arguments =>
    rw [edges, Ty.fault?_callEdges]
    constructor
    · rintro ⟨methodless, rfl⟩
      exact .call methodless
    · rintro ⟨methodless⟩
      exact ⟨methodless, rfl⟩
  | binary op left divisor =>
    have known : fault? (Node.binary op left divisor).edges = none := by
      rw [edges]
      split <;> rfl
    rw [known]
    exact ⟨nofun, nofun⟩
  | literal value => cases value <;> exact ⟨nofun, nofun⟩
  | assign target value =>
    obtain ⟨inner, ty⟩ := target
    cases inner <;> exact ⟨nofun, nofun⟩
  | _ => exact ⟨nofun, nofun⟩

namespace Expr

theorem fault?_ownEdges {e : Expr} {fault : CallFault} :
    fault? e.ownEdges = some fault ↔ e.node.Refused fault := by
  unfold ownEdges
  split
  · next transient =>
    rw [transient]
    exact ⟨nofun, nofun⟩
  · rw [fault?_map, Node.fault?_edges]

theorem nodesFrom_pending (first second : List Expr) :
    nodesFrom [] (first ++ second) = nodesFrom [] first ++ nodesFrom [] second := by
  suffices general : ∀ seen, nodesFrom seen (first ++ second) =
      nodesFrom seen first ++ nodesFrom [] second from general []
  intro seen
  fun_induction nodesFrom seen first with
  | case1 seen => rw [List.nil_append, nodesFrom_eq]
  | case2 seen e pending ih => rw [List.cons_append, nodesFrom, ← List.append_assoc, ih]

theorem nodesFrom_eq_flatMap (pending : List Expr) :
    nodesFrom [] pending = pending.flatMap nodes := by
  induction pending with
  | nil => rw [nodesFrom]; rfl
  | cons e rest ih => rw [List.flatMap_cons, ← ih, nodes, ← nodesFrom_pending, List.singleton_append]

/-- A tree is read node by node: the root, then one part after the other. -/
theorem nodes_eq (e : Expr) : e.nodes = e :: e.parts.flatMap nodes := by
  rw [nodes, nodesFrom_cons, List.append_nil, nodesFrom_eq_flatMap]

theorem sizeOf_children (e : Expr) : sizeOf e.node.children ≤ sizeOf e + 1 := by
  obtain ⟨node, ty⟩ := e
  have positive : 0 < sizeOf ty := Nat.pos_of_ne_zero (by cases ty <;> simp)
  cases node with
  | closure params captures body =>
    have joined := sizeOf_append captures [body]
    simp [Node.children] at joined ⊢
    omega
  | _ => simp [Node.children] <;> omega

theorem sizeOf_lt_of_mem_children {e child : Expr} (member : child ∈ e.node.children) :
    sizeOf child < sizeOf e := by
  have children := sizeOf_children e
  obtain ⟨before, after, split⟩ := List.append_of_mem member
  have joined := sizeOf_append before (child :: after)
  have positive : ∀ trees : List Expr, 0 < sizeOf trees := by
    intro trees
    cases trees with
    | nil => exact Nat.one_pos
    | cons first rest =>
      rw [List.cons.sizeOf_spec]
      omega
  have before := positive before
  have after := positive after
  rw [split] at children
  rw [List.cons.sizeOf_spec] at joined
  omega

/-- What holds of a tree if it holds of all its children holds of every tree. -/
theorem children_induction {holds : Expr → Prop}
    (step : ∀ e, (∀ child ∈ e.node.children, holds child) → holds e) (e : Expr) : holds e :=
  step e fun child _ => children_induction step child
termination_by sizeOf e
decreasing_by exact sizeOf_lt_of_mem_children ‹_›

theorem fault?_edges (e : Expr) :
    fault? e.edges = (fault? e.ownEdges).or (e.parts.findSome? fun sub => fault? sub.edges) := by
  have read : ∀ sub : Expr, fault? sub.edges = sub.nodes.findSome? fun e => fault? e.ownEdges := by
    intro sub
    rw [edges, fault?_map, fault?_mapM]
  simp only [read]
  rw [nodes_eq, List.findSome?_cons, findSome?_flatMap]
  cases fault? e.ownEdges <;> rfl

/-- A static field that is assigned to is not read, but there is nothing to refuse in it. -/
theorem fault?_edges_eq (e : Expr) :
    fault? e.edges =
      (fault? e.ownEdges).or (e.node.children.findSome? fun child => fault? child.edges) := by
  rw [fault?_edges]
  obtain ⟨node, ty⟩ := e
  cases node with
  | assign target value =>
    obtain ⟨inner, innerTy⟩ := target
    cases inner with
    | staticField owner name =>
      have silent : fault? (Expr.edges ⟨.staticField owner name, innerTy⟩) = none := by
        rw [fault?_edges]
        rfl
      simp only [Node.children, parts, List.findSome?_cons, silent]
    | _ => rfl
  | _ => rfl

theorem sound_iff {e : Expr} :
    e.Sound ↔ (∀ fault, ¬ e.node.Refused fault) ∧ ∀ child ∈ e.node.children, child.Sound := by
  constructor
  · intro sound
    refine ⟨fun fault => sound [] e fault rfl, ?_⟩
    intro child member path sub fault located
    obtain ⟨i, found⟩ := List.mem_iff_getElem?.mp member
    exact sound (i :: path) sub fault (by rw [at?, found]; exact located)
  · rintro ⟨own, below⟩ path sub fault located
    cases path with
    | nil =>
      obtain rfl := Option.some.inj located
      exact own fault
    | cons i path =>
      obtain ⟨child, found, located⟩ := Option.bind_eq_some_iff.mp located
      exact below child (List.mem_of_getElem? found) path sub fault located

theorem fault?_edges_eq_none_iff (e : Expr) : fault? e.edges = none ↔ e.Sound := by
  induction e using children_induction with
  | step e ih =>
    have own : fault? e.ownEdges = none ↔ ∀ fault, ¬ e.node.Refused fault := by
      simp only [Option.eq_none_iff_forall_ne_some, ne_eq, fault?_ownEdges]
    rw [fault?_edges_eq, Option.or_eq_none_iff, own, List.findSome?_eq_none_iff, sound_iff]
    exact and_congr_right fun _ => forall₂_congr ih

/-- The fault that is found is that of the refused call that is read first. -/
theorem firstRefused_of_fault? {e : Expr} {fault : CallFault} (failed : fault? e.edges = some fault) :
    e.FirstRefused fault := by
  induction e using children_induction with
  | step e ih =>
    rw [fault?_edges_eq, Option.or_eq_some_iff] at failed
    rcases failed with own | ⟨own, below⟩
    · exact ⟨[], e, rfl, fault?_ownEdges.mp own, nofun⟩
    · obtain ⟨before, child, after, split, inside, passed⟩ := List.findSome?_eq_some_iff.mp below
      have member : child ∈ e.node.children := by simp [split]
      obtain ⟨path, sub, located, refused, first⟩ := ih child member inside
      have here : e.node.children[before.length]? = some child := by simp [split]
      refine ⟨before.length :: path, sub, by rw [at?, here]; exact located, refused, ?_⟩
      intro earlier other later precedes found
      cases precedes with
      | above =>
        obtain rfl := Option.some.inj found
        intro refused
        rw [fault?_ownEdges.mpr refused] at own
        cases own
      | left lower =>
        obtain ⟨sibling, at_, found⟩ := Option.bind_eq_some_iff.mp found
        rw [split, List.getElem?_append_left lower] at at_
        have sound := (fault?_edges_eq_none_iff sibling).mp (passed _ (List.mem_of_getElem? at_))
        exact sound _ other later found
      | inside precedes =>
        rw [at?, here] at found
        exact first _ other later precedes found

theorem FirstRefused.unique {e : Expr} {first second : CallFault} (one : e.FirstRefused first)
    (other : e.FirstRefused second) : first = second := by
  obtain ⟨path, sub, located, refused, least⟩ := one
  obtain ⟨path', sub', located', refused', least'⟩ := other
  rcases ReadBefore.total path path' with rfl | before | after
  · obtain rfl := Option.some.inj (located.symm.trans located')
    exact refused.unique refused'
  · exact absurd refused (least' _ _ _ before located)
  · exact absurd refused' (least _ _ _ after located')

theorem fault?_edges_eq_some_iff {e : Expr} {fault : CallFault} :
    fault? e.edges = some fault ↔ e.FirstRefused fault := by
  refine ⟨firstRefused_of_fault?, fun first => ?_⟩
  cases failed : fault? e.edges with
  | none =>
    obtain ⟨path, sub, located, refused, _⟩ := first
    exact absurd refused ((fault?_edges_eq_none_iff e).mp failed path sub fault located)
  | some other => rw [(firstRefused_of_fault? failed).unique first]

theorem FirstRefused.context {e : Expr} {fault : CallFault} (first : e.FirstRefused fault) :
    fault.context = [] := by
  obtain ⟨path, sub, _, refused, _⟩ := first
  exact refused.context

end Expr

/-! The fault of a unit, and of a list of units. -/

/-- The fault of a body, in its member. -/
def bodyFault? (entry : Selector × Expr) : Option CallFault :=
  (fault? entry.2.edges).map (CallFault.inMember entry.1)

theorem bodyFault?_eq_none_iff {entry : Selector × Expr} :
    bodyFault? entry = none ↔ entry.2.Sound := by
  rw [bodyFault?, Option.map_eq_none_iff, Expr.fault?_edges_eq_none_iff]

theorem MemberSummary.fault?_ofEdges (selector : Selector) (isAbstract isExported : Bool)
    (edges : Except CallFault (List Edge)) :
    fault? (ofEdges selector isAbstract isExported edges) =
      (fault? edges).map (CallFault.inMember selector) := by
  cases edges <;> rfl

theorem fault?_bodyEdges (selector : Selector) (body : Option Expr) :
    (fault? (bodyEdges body)).map (CallFault.inMember selector) =
      (body.toList.map fun body => (selector, body)).findSome? bodyFault? := by
  cases body with
  | none => rfl
  | some body => simp [bodyEdges, bodyFault?]

theorem MethodDef.fault?_summary (m : MethodDef) :
    fault? m.summary = m.bodies.findSome? bodyFault? := by
  rw [summary, MemberSummary.fault?_ofEdges, fault?_bind_pure, fault?_bodyEdges, bodies]

theorem PropertyDef.fault?_setterEdges (p : PropertyDef) :
    (fault? p.setterEdges).map (CallFault.inMember p.selector) =
      (p.setter.toList.map fun setter => (p.selector, setter.body)).findSome? bodyFault? := by
  unfold setterEdges
  cases p.setter with
  | none => rfl
  | some setter => simp [bodyFault?]

theorem PropertyDef.fault?_summary (p : PropertyDef) :
    fault? p.summary = p.bodies.findSome? bodyFault? := by
  rw [summary, MemberSummary.fault?_ofEdges, fault?_bind fun _ => fault?_bind_pure .., Option.map_or,
    fault?_bodyEdges, fault?_setterEdges, bodies, List.findSome?_append]

theorem ExportDef.fault?_summary (owner : Name) (exports : List ExportDef) :
    fault? (summary owner exports) = (exports.flatMap bodies).findSome? bodyFault? := by
  have each : ∀ e : ExportDef, (fault? (edges owner e)).map (CallFault.inMember .topLevelExports) =
      e.bodies.findSome? bodyFault? := by
    intro e
    unfold edges bodies
    cases e.target <;> simp [bodyFault?]
  rw [summary, MemberSummary.fault?_ofEdges, fault?_map, fault?_mapM, List.map_findSome?,
    findSome?_flatMap]
  exact congrArg (List.findSome? · exports) (funext each)

namespace UnitDef

theorem fault?_exportSummaries (u : UnitDef) :
    fault? u.exportSummaries = (u.exports.flatMap ExportDef.bodies).findSome? bodyFault? := by
  unfold exportSummaries
  split
  · next empty => simp [List.isEmpty_iff.mp empty]
  · rw [fault?_map, ExportDef.fault?_summary]

theorem fault?_summary (u : UnitDef) : fault? u.summary = u.bodies.findSome? bodyFault? := by
  have exports := u.fault?_exportSummaries
  rw [summary, fault?_bind_pure, memberSummaries,
    fault?_bind fun _ => fault?_bind fun _ => fault?_bind_pure .., fault?_mapM, fault?_mapM, exports,
    bodies, List.findSome?_append, List.findSome?_append, Option.or_assoc]
  simp only [MethodDef.fault?_summary, PropertyDef.fault?_summary, findSome?_flatMap]

theorem fault?_summary_eq_none_iff {u : UnitDef} : fault? u.summary = none ↔ u.Sound := by
  rw [fault?_summary, List.findSome?_eq_none_iff]
  simp only [bodyFault?_eq_none_iff, Prod.forall, mem_bodies_iff]
  rfl

theorem fault?_summary_eq_some_iff {u : UnitDef} {fault : CallFault} :
    fault? u.summary = some fault ↔
      ∃ selector, u.FirstRefused selector fault.rootCause ∧ fault.context = [selector] := by
  rw [fault?_summary, List.findSome?_eq_some_iff]
  constructor
  · rintro ⟨before, ⟨selector, body⟩, after, split, failed, passed⟩
    obtain ⟨cause, found, rfl⟩ := Option.map_eq_some_iff.mp failed
    have first := Expr.fault?_edges_eq_some_iff.mp found
    have bare : (cause.inMember selector).rootCause = cause := by
      rw [CallFault.inMember, CallFault.rootCause, ← first.context]
    refine ⟨selector, ⟨before, body, after, split, ?_, bare.symm ▸ first⟩, ?_⟩
    · exact fun earlier member => bodyFault?_eq_none_iff.mp (passed earlier member)
    · rw [CallFault.inMember, first.context]
  · rintro ⟨selector, ⟨before, body, after, split, passed, first⟩, context⟩
    refine ⟨before, (selector, body), after, split, ?_, ?_⟩
    · rw [bodyFault?, Expr.fault?_edges_eq_some_iff.mpr first, Option.map_some, CallFault.inMember,
        CallFault.rootCause, ← context]
    · exact fun earlier member => bodyFault?_eq_none_iff.mpr (passed earlier member)

theorem fault?_summaries (units : List UnitDef) :
    fault? (summaries units) = units.findSome? fun u => (fault? u.summary).map (UnitFault.mk u.name) := by
  rw [summaries, fault?_mapM]
  simp only [fault?_mapError]

theorem fault?_summaries_eq_none_iff {units : List UnitDef} :
    fault? (summaries units) = none ↔ ∀ u ∈ units, u.Sound := by
  rw [fault?_summaries, List.findSome?_eq_none_iff]
  simp only [Option.map_eq_none_iff, fault?_summary_eq_none_iff]

theorem fault?_summaries_eq_some_iff {units : List UnitDef} {fault : UnitFault} :
    fault? (summaries units) = some fault ↔ fault.IsFirst units := by
  rw [fault?_summaries, List.findSome?_eq_some_iff]
  constructor
  · rintro ⟨before, u, after, split, failed, passed⟩
    obtain ⟨cause, found, rfl⟩ := Option.map_eq_some_iff.mp failed
    obtain ⟨selector, first, context⟩ := fault?_summary_eq_some_iff.mp found
    refine ⟨before, u, after, selector, split, fun earlier member => ?_, rfl, context, first⟩
    exact fault?_summary_eq_none_iff.mp (Option.map_eq_none_iff.mp (passed earlier member))
  · rintro ⟨before, u, after, selector, split, passed, named, context, first⟩
    refine ⟨before, u, after, split, ?_, fun earlier member => ?_⟩
    · rw [fault?_summary_eq_some_iff.mpr ⟨selector, first, context⟩, Option.map_some, ← named]
    · rw [fault?_summary_eq_none_iff.mpr (passed earlier member), Option.map_none]

end UnitDef

/-- Definitions are refused exactly if a body of some unit contains a call on a receiver without
methods, the fault is the first one, and definitions that are not refused have a summary each. -/
theorem refused_iff_isFirst (units : List UnitDef) (config : Config) :
    ((∃ fault, UnitDef.summaries units = .error fault) ↔
      ∃ u ∈ units, ∃ selector body, u.HasBody selector body ∧
        ∃ path e fault, body.at? path = some e ∧ e.node.Refused fault) ∧
    (∀ fault, UnitDef.summaries units = .error fault ↔ fault.IsFirst units) ∧
    (∀ fault, link units config = .error fault ↔ UnitDef.summaries units = .error fault) ∧
    ((∀ u ∈ units, u.Sound) ↔ ∃ summaries, UnitDef.summaries units = .ok summaries ∧
      List.Forall₂ (fun u summary => u.summary = .ok summary) units summaries) := by
  have sound := @UnitDef.fault?_summaries_eq_none_iff units
  refine ⟨?_, fun fault => ?_, fun fault => ?_, ?_, ?_⟩
  · have fails : (∃ fault, UnitDef.summaries units = .error fault) ↔ ¬ ∀ u ∈ units, u.Sound := by
      rw [← sound, Option.eq_none_iff_forall_ne_some]
      simp [fault?_eq_some_iff]
    simp only [fails, UnitDef.Sound, Expr.Sound, not_forall, not_not, exists_prop]
  · rw [← fault?_eq_some_iff, UnitDef.fault?_summaries_eq_some_iff]
  · rw [link, ← fault?_eq_some_iff, fault?_map, fault?_eq_some_iff]
  · intro each
    obtain ⟨summaries, done⟩ := fault?_eq_none_iff.mp (sound.mpr each)
    exact ⟨summaries, done, (forall₂_of_mapM done).imp fun _ _ found => mapError_eq_ok found⟩
  · rintro ⟨summaries, done, _⟩
    exact sound.mp (fault?_eq_none_iff.mpr ⟨summaries, done⟩)

/-- A call of a method on the result of a statement. -/
def voidCall (method : Name) : Expr := ⟨.call ⟨.skip, .noValue⟩ method [], .any⟩

/-- The first unit is sound. In the second one the accessors of a property and an export are refused.
The getter is a closure, and in what it captures a refused call is the receiver of another. -/
def misplaced : List UnitDef :=
  [{ name := ⟨20⟩, kind := .plainClass,
     methods := [{ selector := .method ⟨30⟩,
                   body := some ⟨.call ⟨.self, .cls ⟨20⟩⟩ ⟨30⟩ [], .any⟩ }] },
   { name := ⟨21⟩, kind := .plainClass,
     methods := [{ selector := .method ⟨30⟩ }],
     properties := [{ name := ⟨31⟩,
                      getter := some ⟨.closure [] [⟨.call ⟨(voidCall ⟨33⟩).node, .record []⟩ ⟨32⟩ [],
                        .any⟩] (voidCall ⟨34⟩), .any⟩,
                      setter := some ⟨(⟨40⟩, .any), voidCall ⟨35⟩⟩ }],
     exports := [{ name := ⟨36⟩, target := .function (voidCall ⟨37⟩) }] },
   { name := ⟨22⟩, kind := .interface,
     methods := [{ selector := .method ⟨30⟩, body := some (voidCall ⟨38⟩) }] }]

theorem refused_misplaced :
    let fault : UnitFault := ⟨⟨21⟩, .record [], ⟨32⟩, [.method ⟨31⟩]⟩
    link misplaced {} = .error fault ∧ fault.IsFirst misplaced := by
  intro fault
  have refused : UnitDef.summaries misplaced = .error fault := by with_unfolding_all rfl
  obtain ⟨_, first, linked, _⟩ := refused_iff_isFirst misplaced {}
  exact ⟨(linked fault).mpr refused, (first fault).mp refused⟩

end TreeShake
