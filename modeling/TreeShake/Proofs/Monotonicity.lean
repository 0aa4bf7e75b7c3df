import TreeShake.Proofs.Exactness
import TreeShake.Proofs.Extension

set_option autoImplicit false

/-!
The analysis is monotone in the code of a program. If members come to depend on more, or more units,
members and roots are exported, then whatever was kept is kept, and the defects that were listed are
listed. Only a change of the declarations can make something dead that was live.
-/

namespace TreeShake

/-- Both versions of a member declare the same. The second has the export of the first and all that
its record demands: the edges, and the units of the groups, of empty ones too. -/
structure MemberSummary.Below (m n : MemberSummary) : Prop where
  declaration : m.declaration = n.declaration
  isExported : m.isExported = true → n.isExported = true
  demands : m.dependencies.demands ⊆ n.dependencies.demands

/-- Both versions of a unit declare the same, and the second has at least the exports of the first
and the demands of its members. -/
structure UnitSummary.Below (u v : UnitSummary) : Prop where
  declaration : u.declaration = v.declaration
  isExported : u.isExported = true → v.isExported = true
  members : List.Forall₂ MemberSummary.Below u.members v.members

/-- The second version of a unit has the shape of the first, and at least its field classes, its
exports and the demands of its members. -/
structure UnitSummary.Within (u v : UnitSummary) : Prop where
  shape : u.shape = v.shape
  fieldClasses : u.fieldClasses ⊆ v.fieldClasses
  isExported : u.isExported = true → v.isExported = true
  members : List.Forall₂ MemberSummary.Below u.members v.members

namespace MemberSummary.Below

variable {m n : MemberSummary} (below : Below m n)
include below

theorem selector : m.selector = n.selector := (congrArg MemberSummary.selector below.declaration :)

theorem isAbstract : m.isAbstract = n.isAbstract :=
  (congrArg MemberSummary.isAbstract below.declaration :)

end MemberSummary.Below

theorem UnitSummary.Below.refl (u : UnitSummary) : u.Below u where
  declaration := rfl
  isExported := id
  members := List.forall₂_same.mpr fun _ _ => ⟨rfl, id, List.Subset.refl _⟩

theorem UnitSummary.Below.name {u v : UnitSummary} (below : Below u v) : u.name = v.name :=
  name_eq (shape_eq below.declaration)

theorem UnitSummary.Below.within {u v : UnitSummary} (below : Below u v) : u.Within v where
  shape := shape_eq below.declaration
  fieldClasses := by
    have same : u.fieldClasses = v.fieldClasses :=
      (congrArg UnitSummary.fieldClasses below.declaration :)
    rw [same]
    exact List.Subset.refl _
  isExported := below.isExported
  members := below.members

theorem UnitSummary.Within.name {u v : UnitSummary} (within : u.Within v) : u.name = v.name :=
  name_eq within.shape

namespace Program

variable {p q : Program}

section Units

variable (units : List.Forall₂ UnitSummary.Within p.units q.units)
include units

theorem exists_find?_of_within {name : Name} {u : UnitSummary} (found : p.find? name = some u) :
    ∃ v, q.find? name = some v ∧ u.Within v := by
  have pair := rel_find? (fun _ _ within => within.name) units name
  obtain ⟨v, other, _, within⟩ := exists_of_rel pair found
  exact ⟨v, other, within⟩

theorem fieldClasses_of_within (name : Name) : p.fieldClasses name ⊆ q.fieldClasses name := by
  cases found : p.find? name with
  | none =>
    rw [fieldClasses, found]
    exact List.nil_subset _
  | some u =>
    obtain ⟨v, other, within⟩ := exists_find?_of_within units found
    rw [fieldClasses, found, fieldClasses, other]
    exact within.fieldClasses

theorem demands_of_within (m : Slot) :
    (p.dependencies m).demands ⊆ (q.dependencies m).demands := by
  cases declared : p.member? m with
  | none =>
    rw [dependencies, declared]
    exact List.nil_subset _
  | some summary =>
    obtain ⟨later, again, below⟩ := exists_member? (fun _ => MemberSummary.Below)
      (fun _ _ within => within.name) (fun _ _ within => within.members) units declared
    rw [dependencies, declared, dependencies, again]
    exact below.demands

theorem below_of_within {c d : Config} (options : c.toOptions = d.toOptions)
    (roots : c.roots.toList ⊆ d.roots.toList) : p.Below c q d where
  shape := sameShape_of_forall₂ (units.imp fun _ _ within => within.shape)
  fieldClasses := fieldClasses_of_within units
  reporting reporting := options ▸ reporting
  contracts contracts := options ▸ contracts
  roots := roots
  demands := demands_of_within units
  exported name u found exported := by
    obtain ⟨v, other, within⟩ := exists_find?_of_within units found
    exact ⟨v, other, within.isExported exported⟩
  offered name m visible := by
    obtain ⟨owner, u, found, summary, stands, offered⟩ := mem_exports.mp visible
    obtain ⟨v, other, within⟩ := exists_find?_of_within units found
    obtain ⟨later, inside, below⟩ := exists_of_rel (rel_getElem? within.members m.position) stands
    exact mem_exports.mpr ⟨owner, v, other, later, inside, below.isExported offered⟩

end Units

theorem below_ofUnits {first second : List UnitSummary}
    (units : List.Forall₂ UnitSummary.Within first second) {c d : Config}
    (options : c.toOptions = d.toOptions) (roots : c.roots.toList ⊆ d.roots.toList) :
    (ofUnits first).Below c (ofUnits second) d :=
  below_of_within (UnitSummary.forall₂_firsts (fun _ _ within => within.name) units) options roots

theorem below_of_forall₂ (units : List.Forall₂ UnitSummary.Below p.units q.units) {c d : Config}
    (options : c.toOptions = d.toOptions) (roots : c.roots.toList ⊆ d.roots.toList) :
    p.Below c q d :=
  below_of_within (units.imp fun _ _ below => below.within) options roots

end Program

/-- All that the first report keeps of a unit is in the second one. -/
structure UnitReport.Below (r t : UnitReport) : Prop where
  name : r.name = t.name
  kind : r.kind = t.kind
  uses : r.uses ⊆ t.uses
  members : r.members ⊆ t.members
  contracts : r.contracts ⊆ t.contracts
  reads : r.reads ⊆ t.reads
  writes : r.writes ⊆ t.writes

/-- All that is in the first report is in the second one. -/
structure Report.Below (r t : Report) : Prop where
  units : ∀ u ∈ r.units, ∃ v ∈ t.units, u.Below v
  hostGlobals : r.hostGlobals ⊆ t.hostGlobals
  defects : ∀ defect, Diagnostic.Listed r.diagnostics defect →
    Diagnostic.Listed t.diagnostics defect

namespace State

variable {p q : Program} {c d : Config} (below : p.Below c q d)
include below

theorem liveMembers_run_mono {u v : UnitSummary} (found : p.find? u.name = some u)
    (unit : u.Below v) (isAbstract : Bool) :
    (run p c.toOptions c.roots).liveMembers u isAbstract ⊆
      (run q d.toOptions d.roots).liveMembers v isAbstract := by
  intro selector listed
  obtain ⟨i, m, stands, rfl, same, reached⟩ := mem_liveMembers_iff.mp listed
  obtain ⟨n, later, paired⟩ := exists_of_rel (rel_getElem? unit.members i) stands
  have present : p.member? ⟨u.name, i⟩ = some m :=
    Program.member?_eq_some_iff.mpr ⟨u, found, stands⟩
  have still := reached_run_mono below (Option.isSome_of_eq_some present) reached
  rw [unit.name] at still
  exact mem_liveMembers_iff.mpr
    ⟨i, n, later, paired.selector.symm, paired.isAbstract ▸ same, still⟩

theorem unitReport_run_mono {u v : UnitSummary} (found : p.find? u.name = some u)
    (unit : u.Below v) :
    ((run p c.toOptions c.roots).unitReport u).Below
      ((run q d.toOptions d.roots).unitReport v) where
  name := unit.name
  kind := UnitSummary.kind_eq unit.within.shape
  uses use member := by
    obtain ⟨listed, used⟩ := List.mem_filter.mp member
    have still : (run q d.toOptions d.roots).Knows q (.use u.name use) :=
      knows_run_mono below used
    exact List.mem_filter.mpr ⟨listed, unit.name ▸ still⟩
  members := liveMembers_run_mono below found unit false
  contracts := liveMembers_run_mono below found unit true
  reads field member := by
    have still : (run q d.toOptions d.roots).Knows q (.read u.name field) :=
      knows_run_mono below member
    rwa [unit.name] at still
  writes field member := by
    have still : (run q d.toOptions d.roots).Knows q (.write u.name field) :=
      knows_run_mono below member
    rwa [unit.name] at still

end State

/-- A program whose members depend on more, with more exports and more roots, keeps all that it kept
before and has all defects that it had. -/
theorem analyze_mono {first second : List UnitSummary} {c d : Config}
    (units : List.Forall₂ UnitSummary.Below first second) (options : c.toOptions = d.toOptions)
    (roots : c.roots.toList ⊆ d.roots.toList) :
    (analyze first c).Below (analyze second d) := by
  have kept : List.Forall₂ UnitSummary.Below (Program.ofUnits first).units
      (Program.ofUnits second).units :=
    UnitSummary.forall₂_firsts (fun _ _ below => below.name) units
  have below := Program.below_of_forall₂ kept options roots
  constructor
  case units =>
    intro r member
    obtain ⟨u, present, reached, rfl⟩ := State.mem_units_finish.mp member
    have found := (Program.ofUnits first).find?_eq_some_iff.mpr ⟨present, rfl⟩
    obtain ⟨v, other, unit⟩ := exists_of_forall₂ kept present
    have still : (State.run _ d.toOptions d.roots).Knows _ (.use u.name .reached) :=
      State.knows_run_mono below reached
    refine ⟨_, State.mem_units_finish.mpr ⟨v, other, unit.name ▸ still, rfl⟩, ?_⟩
    exact State.unitReport_run_mono below found unit
  case hostGlobals => exact fun name used => @State.knows_run_mono _ _ _ _ below (.global name) used
  case defects => exact fun _ listed => State.listed_run_mono below listed

/-- The classes of `reciprocal`, with more code in the method that is called: it calls another
method, and has an empty group of calls on a class that is missing. -/
def reciprocalGrown : List UnitSummary :=
  [{ name := ⟨20⟩, kind := .plainClass, superclass := some ⟨21⟩, isExported := true,
     members := [{ selector := .method ⟨30⟩, isExported := true,
                   dependencies := { calls := [(⟨21⟩, [⟨31⟩])] } }] },
   { name := ⟨21⟩, kind := .plainClass, superclass := some ⟨20⟩,
     members := [{ selector := .method ⟨31⟩,
                   dependencies := { calls := [(⟨40⟩, [])],
                                     exactCalls := [(⟨21⟩, [.method ⟨32⟩])] } },
                 { selector := .method ⟨32⟩ }] }]

theorem analyze_reciprocal_grown :
    (analyze reciprocal {}).Below (analyze reciprocalGrown { roots := .ofList [.unit ⟨20⟩] }) ∧
      (analyze reciprocal {}).keeps ⟨⟨21⟩, .method ⟨32⟩⟩ = false ∧
      (analyze reciprocalGrown { roots := .ofList [.unit ⟨20⟩] }).keeps
        ⟨⟨21⟩, .method ⟨32⟩⟩ = true := by
  refine ⟨analyze_mono ?_ rfl (List.nil_subset _), by decide, by decide⟩
  refine .cons ⟨rfl, id, ?_⟩ (.cons ⟨rfl, id, ?_⟩ .nil)
  · exact .cons ⟨rfl, id, List.Subset.refl _⟩ .nil
  · exact .cons ⟨rfl, id, List.nil_subset _⟩ (.cons ⟨rfl, id, List.Subset.refl _⟩ .nil)

end TreeShake
