import TreeShake.Proofs.Correspondence
import TreeShake.Proofs.Liveness

set_option autoImplicit false

/-!
What a program declares: its units, their places in the hierarchy, and which members they have, with
or without a body. The dependencies of the members and the exports are no part of it. Programs that
declare the same answer all questions about the hierarchy and about the targets of calls alike, and
for these the types of the fields do not matter either.
-/

namespace TreeShake

/-- The member without its dependencies and its export. -/
def MemberSummary.declaration (m : MemberSummary) : MemberSummary where
  selector := m.selector
  isAbstract := m.isAbstract

/-- The unit without the dependencies of its members and without its exports. -/
def UnitSummary.declaration (u : UnitSummary) : UnitSummary where
  name := u.name
  kind := u.kind
  superclass := u.superclass
  interfaces := u.interfaces
  fieldClasses := u.fieldClasses
  members := u.members.map MemberSummary.declaration

/-- The declaration without the classes that the types of the fields name. -/
def UnitSummary.shape (u : UnitSummary) : UnitSummary :=
  { u.declaration with fieldClasses := [] }

theorem UnitSummary.name_eq {u v : UnitSummary} (same : u.shape = v.shape) :
    u.name = v.name := (congrArg UnitSummary.name same :)

theorem UnitSummary.kind_eq {u v : UnitSummary} (same : u.shape = v.shape) :
    u.kind = v.kind := (congrArg UnitSummary.kind same :)

theorem UnitSummary.superclass_eq {u v : UnitSummary} (same : u.shape = v.shape) :
    u.superclass = v.superclass := (congrArg UnitSummary.superclass same :)

theorem UnitSummary.shape_eq {u v : UnitSummary} (same : u.declaration = v.declaration) :
    u.shape = v.shape := by
  rw [shape, same, shape]

theorem UnitSummary.position?_shape (u : UnitSummary) (selector : Selector) :
    u.shape.position? selector = u.position? selector := by
  rw [position?, position?, Ascending.position?_map, Ascending.position?_map _ _ u.members, shape,
    declaration, List.map_map]
  rfl

/-- What a declaration says about a member stands in the slot of the member. -/
theorem UnitSummary.map_members_shape {β : Type} (view : MemberSummary → β)
    (declared : ∀ m, view m.declaration = view m) (u : UnitSummary) (i : Nat) :
    u.shape.members[i]?.map view = u.members[i]?.map view := by
  rw [shape, declaration, List.getElem?_map, Option.map_map]
  congr 1
  funext m
  exact declared m

theorem Hierarchy.ascend_congr {find? other? : Name → Option UnitSummary}
    (same : parents find? = parents other?) (rounds : Nat) (found pending : List Name) :
    ascend find? rounds found pending = ascend other? rounds found pending := by
  induction rounds generalizing found pending with
  | zero => rfl
  | succ rounds ih =>
    rw [ascend, ascend, same]
    split
    · rfl
    · exact ih _ _

/-- Both programs declare the same units, up to the types of the fields. -/
structure Program.SameShape (p q : Program) : Prop where
  find? : ∀ name, (p.find? name).map UnitSummary.shape = (q.find? name).map UnitSummary.shape
  size : p.size = q.size

/-- Both programs declare the same units. -/
structure Program.Alike (p q : Program) : Prop extends Program.SameShape p q where
  fieldClasses : ∀ name, p.fieldClasses name = q.fieldClasses name

namespace Program.SameShape

theorem refl (p : Program) : p.SameShape p := ⟨fun _ => rfl, rfl⟩

variable {p q : Program} (alike : SameShape p q)
include alike

/-- What can be read off the shape of a unit is the same in both. -/
theorem map_find? {β : Type} (view : UnitSummary → β) (declared : ∀ u, view u.shape = view u)
    (name : Name) : (p.find? name).map view = (q.find? name).map view := by
  have through : ∀ unit? : Option UnitSummary,
      unit?.map view = (unit?.map UnitSummary.shape).map view := by
    intro unit?
    rw [Option.map_map]
    congr 1
    funext u
    exact (declared u).symm
  rw [through, alike.find?, ← through]

theorem contains (name : Name) : p.contains name = q.contains name := by
  have same := congrArg Option.isSome (alike.find? name)
  rwa [Option.isSome_map, Option.isSome_map] at same

theorem kind? (name : Name) : p.kind? name = q.kind? name :=
  alike.map_find? UnitSummary.kind (fun _ => rfl) name

theorem parents (name : Name) : p.parents name = q.parents name := by
  rw [Program.parents, Hierarchy.declared, alike.map_find? UnitSummary.parents (fun _ => rfl)]
  rfl

theorem slot? (m : MemberRef) : p.slot? m = q.slot? m := by
  have through : ∀ r : Program, r.slot? m = ((r.find? m.owner).map fun u =>
      (u.position? m.selector).map (Slot.mk m.owner)).join := by
    intro r
    rw [Program.slot?]
    cases r.find? m.owner <;> rfl
  rw [through, through, alike.map_find? _ fun u => by rw [u.position?_shape]]

/-- What can be read off the declaration of a member is the same in both. -/
theorem map_member? {β : Type} (view : MemberSummary → β)
    (declared : ∀ m, view m.declaration = view m) (m : Slot) :
    (p.member? m).map view = (q.member? m).map view := by
  have through : ∀ r : Program, (r.member? m).map view = ((r.find? m.owner).map fun u =>
      u.members[m.position]?.map view).join := by
    intro r
    rw [Program.member?]
    cases r.find? m.owner <;> rfl
  rw [through, through, alike.map_find? _ fun u => u.map_members_shape view declared m.position]

theorem abstract? (m : Slot) : p.abstract? m = q.abstract? m :=
  alike.map_member? MemberSummary.isAbstract (fun _ => rfl) m

theorem ref (m : Slot) : p.ref m = q.ref m := by
  rw [Program.ref, alike.map_member? MemberSummary.selector (fun _ => rfl), Program.ref]

theorem liveness? (m : Slot) : p.liveness? m = q.liveness? m := by
  rw [Program.liveness?, alike.abstract?, Program.liveness?]

/-! The hierarchy. -/

theorem hasParent_iff {name parent : Name} :
    p.HasParent name parent ↔ q.HasParent name parent := by
  rw [HasParent, alike.parents, alike.contains, HasParent]

theorem inherits_iff {name ancestor : Name} :
    p.Inherits name ancestor ↔ q.Inherits name ancestor := by
  have same : p.HasParent = q.HasParent :=
    funext fun _ => funext fun _ => propext alike.hasParent_iff
  rw [Inherits, same, Inherits]

theorem ancestors (name : Name) : p.ancestors name = q.ancestors name := by
  have same : Hierarchy.parents p.find? = Hierarchy.parents q.find? := by
    funext name
    have declared : Hierarchy.declared p.find? name = Hierarchy.declared q.find? name :=
      alike.parents name
    have present : (fun parent => (p.find? parent).isSome) =
        fun parent => (q.find? parent).isSome := funext alike.contains
    rw [Hierarchy.parents, declared, present, Hierarchy.parents]
  rw [Program.ancestors, Program.ancestors, alike.size]
  exact Hierarchy.ascend_congr same _ _ _

theorem chain (rounds : Nat) (name : Option Name) :
    (Hierarchy.chain p.find? rounds name).map UnitSummary.shape =
      (Hierarchy.chain q.find? rounds name).map UnitSummary.shape := by
  induction rounds generalizing name with
  | zero => rfl
  | succ rounds ih =>
    rw [Hierarchy.chain, Hierarchy.chain]
    cases name with
    | none => rfl
    | some name =>
      have same := alike.find? name
      rw [Option.bind_some, Option.bind_some]
      cases found : p.find? name with
      | none =>
        rw [found, Option.map_none, eq_comm, Option.map_eq_none_iff] at same
        rw [same]
      | some u =>
        rw [found, Option.map_some, eq_comm, Option.map_eq_some_iff] at same
        obtain ⟨v, other, same⟩ := same
        rw [other, List.map_cons, List.map_cons, same, ih, UnitSummary.superclass_eq same]

theorem map_superclasses {β : Type} (view : UnitSummary → β)
    (declared : ∀ u, view u.shape = view u) (name : Name) :
    (p.superclasses name).map view = (q.superclasses name).map view := by
  have through : ∀ units : List UnitSummary,
      units.map view = (units.map UnitSummary.shape).map view := by
    intro units
    rw [List.map_map]
    exact List.map_congr_left fun u _ => (declared u).symm
  rw [through, Program.superclasses, Hierarchy.superclasses, alike.chain, alike.size, ← through]
  rfl

/-! The targets of calls. -/

theorem body? (owner method : Name) : p.body? owner method = q.body? owner method := by
  simp only [Program.body?, alike.slot?, alike.abstract?]

theorem hasBody (owner method : Name) : p.hasBody owner method = q.hasBody owner method := by
  rw [Program.hasBody, alike.body?, Program.hasBody]

theorem inherited? (cls method : Name) : p.inherited? cls method = q.inherited? cls method := by
  simp only [Program.inherited?, alike.map_superclasses UnitSummary.name (fun _ => rfl),
    alike.hasBody]

theorem defaultsAmong (lineage : List Name) (method : Name) :
    p.defaultsAmong lineage method = q.defaultsAmong lineage method := by
  simp only [Program.defaultsAmong, alike.kind?, alike.hasBody]

theorem default? (cls method : Name) : p.default? cls method = q.default? cls method := by
  simp only [Program.default?, Program.defaults, alike.ancestors, alike.defaultsAmong]

theorem implementation? (cls method : Name) :
    p.implementation? cls method = q.implementation? cls method := by
  rw [Program.implementation?, alike.inherited?, alike.default?, Program.implementation?]

theorem target? (cls method : Name) : p.target? cls method = q.target? cls method := by
  simp only [Program.target?, alike.implementation?, alike.body?]

theorem isHostProvided (cls : Name) : p.isHostProvided cls = q.isHostProvided cls := by
  have through : ∀ r : Program, r.isHostProvided cls =
      ((r.superclasses cls).map UnitSummary.kind).any UnitKind.isNative := by
    intro r
    rw [Program.isHostProvided, List.any_map]
    rfl
  rw [through, through, alike.map_superclasses UnitSummary.kind (fun _ => rfl)]

theorem contractAmong? (lineage : List Name) (method : Name) :
    p.contractAmong? lineage method = q.contractAmong? lineage method := by
  simp only [Program.contractAmong?, alike.slot?, alike.abstract?]

theorem contract? (receiver method : Name) :
    p.contract? receiver method = q.contract? receiver method := by
  rw [Program.contract?, alike.ancestors, alike.contractAmong?, Program.contract?]

theorem exactTarget? (owner : Name) (selector : Selector) :
    p.exactTarget? owner selector = q.exactTarget? owner selector := by
  simp only [Program.exactTarget?, alike.slot?, alike.target?]

theorem hostAnswers (owner : Name) (selector : Selector) :
    p.hostAnswers owner selector = q.hostAnswers owner selector := by
  simp only [Program.hostAnswers, alike.isHostProvided, alike.kind?]

theorem exactCall {owner : Name} {selector : Selector} {fact : Fact Slot}
    (call : p.ExactCall owner selector fact) : q.ExactCall owner selector fact := by
  rw [exactCall_iff] at call ⊢
  simpa only [alike.exactTarget?, alike.hostAnswers, alike.liveness?] using call

end Program.SameShape

theorem Program.sameShape_of_forall₂ {p q : Program} (units : List.Forall₂ (fun u v =>
    UnitSummary.shape u = UnitSummary.shape v) p.units q.units) : p.SameShape q where
  find? name := by
    have found := rel_find? (fun _ _ => UnitSummary.name_eq) units name
    generalize p.find? name = here, q.find? name = there at found
    cases found with
    | none => rfl
    | some pair => exact congrArg some pair.2
  size := units.length_eq

theorem Program.alike_of_forall₂ {p q : Program} (units : List.Forall₂ (fun u v =>
    UnitSummary.declaration u = UnitSummary.declaration v) p.units q.units) : p.Alike q where
  toSameShape := sameShape_of_forall₂ (units.imp fun _ _ => UnitSummary.shape_eq)
  fieldClasses name := by
    have found := rel_find? (fun _ _ same => UnitSummary.name_eq (UnitSummary.shape_eq same)) units name
    unfold Program.fieldClasses
    generalize p.find? name = here, q.find? name = there at found
    cases found with
    | none => rfl
    | some pair => exact (congrArg UnitSummary.fieldClasses pair.2 :)

end TreeShake
