import TreeShake.Proofs.Exactness
import TreeShake.Proofs.Replay

set_option autoImplicit false

/-!
What is known about a unit fits together between the steps of a run. A use of a unit implies the uses
that it rests on, up to its place in the hierarchy, and a unit with code that runs is initialized.
Inside a step this need not hold: a use is written down before what it rests on.

So the report loses nothing when it leaves out the units that are not reached, and no code of a unit
is kept that is there for type tests, for class data or for the hierarchy alone.
-/

namespace TreeShake

/-- The report says nothing about the unit. -/
structure UnitReport.IsBlank (r : UnitReport) : Prop where
  uses : r.uses = []
  members : r.members = []
  contracts : r.contracts = []
  reads : r.reads = []
  writes : r.writes = []

namespace State

variable {p : Program} {o : Options} {roots : RootSet} {s : State} {u : UnitSummary}

/-- What a state holds about a unit of the program fits together. -/
structure Consistent (p : Program) (s : State) (u : UnitSummary) : Prop where
  used : ∀ use, s.has u.name use = true → s.has u.name .reached = true
  reached : s.has u.name .reached = true → ∀ parent ∈ u.parents, p.contains parent = true →
    s.has parent .reached = true
  moduleAccessed : s.has u.name .moduleAccessed = true →
    u.kind.isModule = true ∧ s.has u.name .instantiated = true
  instantiated : s.has u.name .instantiated = true →
    u.kind ≠ .interface ∧ s.has u.name .initialized = true ∧
      ∀ ancestor, p.Inherits u.name ancestor →
        s.has ancestor .reached = true ∧ s.has ancestor .dataAccessed = true
  initialized : s.has u.name .initialized = true → ∀ i m, u.members[i]? = some m →
    m.selector = .staticInitializer → s.progress.get ⟨u.name, i⟩ ≠ .unseen
  bodies : ∀ i m, u.members[i]? = some m → m.isAbstract = false →
    s.progress.get ⟨u.name, i⟩ ≠ .unseen → s.has u.name .initialized = true
  contracts : ∀ i m, u.members[i]? = some m → m.isAbstract = true →
    s.progress.get ⟨u.name, i⟩ ≠ .unseen → s.has u.name .reached = true
  fields : ∀ access, (s.fields access).get u.name ≠ [] → s.has u.name .initialized = true

section Settled

variable (settled : Settled p o ∅ s) (member : u ∈ p.units)
include settled member

theorem Settled.reached_parent (reached : s.has u.name .reached = true) {parent : Name}
    (declared : parent ∈ u.parents) (present : p.contains parent = true) :
    s.has parent .reached = true := by
  have found := p.find?_eq_some_iff.mpr ⟨member, rfl⟩
  apply (settled.above _ reached).1
  refine ⟨?_, present⟩
  simpa [Program.parents, Hierarchy.declared, found] using declared

theorem Settled.of_moduleAccessed (loaded : s.has u.name .moduleAccessed = true) :
    u.kind.isModule = true ∧ s.has u.name .instantiated = true := by
  obtain ⟨⟨kind, known, module⟩, made, _⟩ :=
    settled.settles (show s.Owes p (.use u.name .moduleAccessed) from loaded)
  rw [Program.kind?, p.find?_eq_some_iff.mpr ⟨member, rfl⟩] at known
  obtain rfl := Option.some.inj known
  exact ⟨module, made⟩

theorem Settled.of_instantiated (made : s.has u.name .instantiated = true) :
    u.kind ≠ .interface ∧ s.has u.name .initialized = true ∧
      ∀ ancestor, p.Inherits u.name ancestor →
        s.has ancestor .reached = true ∧ s.has ancestor .dataAccessed = true := by
  obtain ⟨⟨kind, known, allowed⟩, code, data⟩ :=
    settled.settles (show s.Owes p (.use u.name .instantiated) from made)
  have found := p.find?_eq_some_iff.mpr ⟨member, rfl⟩
  rw [Program.kind?, found] at known
  obtain rfl := Option.some.inj known
  refine ⟨by simpa [UnitKind.isInstantiable] using allowed, code, fun ancestor inherits => ?_⟩
  have above := (p.mem_ancestors_iff (p.contains_of_find? found)).mpr inherits
  exact ⟨settled.reached (data ancestor above).1, (data ancestor above).1⟩

/-- Where no duty is open, all fits together. -/
theorem Settled.consistent (ordered : p.Ordered) : Consistent p s u := by
  have found := p.find?_eq_some_iff.mpr ⟨member, rfl⟩
  have present : ∀ {i m}, u.members[i]? = some m → p.member? ⟨u.name, i⟩ = some m :=
    fun stands => Program.member?_eq_some_iff.mpr ⟨u, found, stands⟩
  have declared : ∀ {i m}, u.members[i]? = some m → p.abstract? ⟨u.name, i⟩ = some m.isAbstract :=
    fun stands => Program.abstract?_eq_some_iff.mpr ⟨_, present stands, rfl⟩
  exact {
    used := fun _ => settled.reached
    reached := fun reached _ => settled.reached_parent member reached
    moduleAccessed := settled.of_moduleAccessed member
    instantiated := settled.of_instantiated member
    initialized := by
      intro code i m stands starts
      have scheduled :=
        (settled.settles (show s.Owes p (.use u.name .initialized) from code)).2
      have slot := Program.slot?_ref ordered (present stands)
      rw [Program.ref_of_member? (present stands), starts] at slot
      exact scheduled _ slot (Option.isSome_of_eq_some (present stands))
    bodies := by
      intro i m stands concrete seen
      have owes : s.Owes p (.member ⟨u.name, i⟩) := seen
      exact (settled.settles owes).1 (concrete ▸ declared stands)
    contracts := by
      intro i m stands contract seen
      have owes : s.Owes p (.member ⟨u.name, i⟩) := seen
      exact (settled.settles owes).2 (contract ▸ declared stands)
    fields := by
      intro access accessed
      exact settled.settles (show s.Owes p (.fields u.name) from ⟨access, accessed⟩) }

end Settled

/-! What is reported. -/

theorem liveMembers_eq_nil {isAbstract : Bool}
    (unreached : ∀ i m, u.members[i]? = some m → m.isAbstract = isAbstract →
      s.progress.get ⟨u.name, i⟩ ≠ .reached) : s.liveMembers u isAbstract = [] := by
  apply List.eq_nil_iff_forall_not_mem.mpr
  intro selector listed
  obtain ⟨i, m, stands, _, same, reached⟩ := mem_liveMembers_iff.mp listed
  exact unreached i m stands same reached

namespace Consistent

variable (consistent : Consistent p s u)
include consistent

/-- Where no code of a unit runs, none of its bodies is live, and its fields are not accessed. -/
theorem of_not_initialized (dormant : s.has u.name .initialized ≠ true) :
    s.liveMembers u false = [] ∧ s.reads.get u.name = [] ∧ s.writes.get u.name = [] := by
  have unused : ∀ access, (s.fields access).get u.name = [] := by
    intro access
    by_contra accessed
    exact dormant (consistent.fields access accessed)
  refine ⟨liveMembers_eq_nil fun i m stands concrete live => ?_, unused .read, unused .write⟩
  exact dormant (consistent.bodies i m stands concrete (by simp [live]))

/-- There is nothing to report about a unit that is not reached. -/
theorem isBlank (hidden : s.has u.name .reached ≠ true) : (s.unitReport u).IsBlank := by
  have dormant : s.has u.name .initialized ≠ true := fun code => hidden (consistent.used _ code)
  obtain ⟨members, reads, writes⟩ := consistent.of_not_initialized dormant
  refine ⟨?_, members, liveMembers_eq_nil fun i m stands contract live => ?_, reads, writes⟩
  · apply List.filter_eq_nil_iff.mpr
    exact fun use _ held => hidden (consistent.used use held)
  · exact hidden (consistent.contracts i m stands contract (by simp [live]))

/-- A unit that is there for its place in the hierarchy, for type tests or for its data alone has no
code that runs. -/
theorem of_uses_subset
    (passive : (s.unitReport u).uses ⊆ [.reached, .typeTested, .dataAccessed]) :
    (s.unitReport u).members = [] ∧ (s.unitReport u).reads = [] ∧ (s.unitReport u).writes = [] := by
  apply consistent.of_not_initialized
  intro code
  have listed : Use.initialized ∈ (s.unitReport u).uses :=
    List.mem_filter.mpr ⟨Use.mem_all _, code⟩
  simpa using passive listed

end Consistent

/-- Between the steps of a run what is known about each unit fits together, so the report leaves out
only units about which there is nothing to say, and keeps no code of a unit that is there for its
place in the hierarchy, for type tests or for its data alone. -/
theorem consistent_between {summaries : List UnitSummary}
    (ascending : ∀ u ∈ summaries, Ascending.By MemberSummary.selector u.members)
    (between : Between (.ofUnits summaries) o roots s) :
    (∀ u ∈ (Program.ofUnits summaries).units, Consistent (.ofUnits summaries) s u) ∧
      (∀ u ∈ (Program.ofUnits summaries).units,
        s.unitReport u ∈ (s.finish (.ofUnits summaries)).units ∨ (s.unitReport u).IsBlank) ∧
      ∀ r ∈ (s.finish (.ofUnits summaries)).units,
        r.uses ⊆ [.reached, .typeTested, .dataAccessed] →
          r.members = [] ∧ r.reads = [] ∧ r.writes = [] := by
  have ordered := Program.ordered_ofUnits ascending
  have consistent : ∀ u ∈ (Program.ofUnits summaries).units, Consistent (.ofUnits summaries) s u :=
    fun u member => between.settled.2.consistent member ordered
  refine ⟨consistent, fun u member => ?_, fun r listed passive => ?_⟩
  · by_cases reached : s.has u.name .reached = true
    · exact .inl (mem_units_finish.mpr ⟨u, member, reached, rfl⟩)
    · exact .inr ((consistent u member).isBlank reached)
  · obtain ⟨u, member, _, rfl⟩ := mem_units_finish.mp listed
    exact (consistent u member).of_uses_subset passive

/-- A module whose constructor writes a static field of a second unit and tests for instances of a
third one. The module and the second unit have static initializers, and nothing reaches the last
unit. -/
def lazyModule : List UnitSummary :=
  [{ name := ⟨20⟩, kind := .moduleClass, interfaces := [⟨21⟩],
     members := [{ selector := .ctor Name.defaultConstructor,
                   dependencies := { writes := [(⟨22⟩, [⟨30⟩])], tested := [⟨23⟩] } },
                 { selector := .staticInitializer }] },
   { name := ⟨21⟩, kind := .interface },
   { name := ⟨22⟩, kind := .plainClass, members := [{ selector := .staticInitializer }] },
   { name := ⟨23⟩, kind := .plainClass, members := [{ selector := .method ⟨31⟩ }] },
   { name := ⟨24⟩, kind := .plainClass, members := [{ selector := .method ⟨31⟩ }] }]

-- Between the expansion of the constructor and that of the second static initializer.
theorem consistent_lazyModule :
    let p := Program.ofUnits lazyModule
    let s := (seeded p {} (.ofList [.module ⟨20⟩])).steps p {} 2
    (∀ u ∈ lazyModule, Ascending.By MemberSummary.selector u.members) ∧
      Between p {} (.ofList [.module ⟨20⟩]) s ∧
      (∀ u ∈ p.units, Consistent p s u) ∧
      (∀ u ∈ p.units, s.unitReport u ∈ (s.finish p).units ∨ (s.unitReport u).IsBlank) ∧
      s.has ⟨20⟩ .moduleAccessed = true ∧ s.has ⟨21⟩ .dataAccessed = true ∧
      s.progress.get ⟨⟨22⟩, 0⟩ = .pending ∧ s.writes.get ⟨22⟩ = [⟨30⟩] ∧
      s.has ⟨23⟩ .typeTested = true ∧ s.has ⟨23⟩ .initialized = false ∧
      (s.finish p).reachedUnits = [⟨20⟩, ⟨21⟩, ⟨22⟩, ⟨23⟩] := by
  have ascending : ∀ u ∈ lazyModule, Ascending.By MemberSummary.selector u.members := by
    unfold Ascending.By
    decide
  have between : Between (.ofUnits lazyModule) {} (.ofList [.module ⟨20⟩])
      ((seeded (.ofUnits lazyModule) {} (.ofList [.module ⟨20⟩])).steps
        (.ofUnits lazyModule) {} 2) := .expanding 2
  obtain ⟨consistent, kept, _⟩ := consistent_between ascending between
  exact ⟨ascending, between, consistent, kept, by decide⟩

end State

end TreeShake
