import TreeShake.Proofs.Comparison
import TreeShake.Proofs.Monotonicity

set_option autoImplicit false

/-!
Contracts are an addition to a report. From an abstract member that is needed it follows that its
unit is reached, from a reached unit that the units above it are, and no more: no rule makes code run
or instances exist because a unit is reached or an abstract member is needed. So the same code runs
in a program whether contracts are kept or not.
-/

namespace TreeShake

/-- The fact is about what happens when the program runs, and not only about the place of a unit in
the hierarchy or about a declaration. -/
def Fact.Runs {μ : Type} : Fact μ → Prop
  | .use _ manner => manner ≠ .reached
  | .contract _ => False
  | .body _ | .read .. | .write .. | .global _ => True

theorem Fact.runs_map {μ ν : Type} {change : μ → ν} {fact : Fact μ} :
    (fact.map change).Runs ↔ fact.Runs := by
  cases fact <;> rfl

namespace Program

variable {p : Program} {c d : Config}

/-- A fact of the running program has a derivation from such facts, and none by a contract. -/
theorem closed_runs (roots : c.roots.toList ⊆ d.roots.toList) :
    p.Closed c fun fact => fact.Runs → p.Live d fact := by
  intro fact derives runs
  cases derives with
  | object | exported | unitRoot | reached | parent | contractOwner => exact absurd rfl runs
  | contract _ _ _ found live =>
    have declared := liveness?_of_contract (contract?_eq_some found).2
    obtain rfl := Option.some.inj (live.symm.trans declared)
    exact runs.elim
  | boxed kind => exact .derived (.boxed kind)
  | exportedMember found exported stands offered live =>
    exact .derived (.exportedMember found exported stands offered live)
  | exposedModule found exported exposes module =>
    exact .derived (.exposedModule found exported exposes module)
  | exposedClass found exported exposes notModule allowed =>
    exact .derived (.exposedClass found exported exposes notModule allowed)
  | memberRoot member call => exact .derived (.memberRoot (roots member) call)
  | moduleRoot member kind module => exact .derived (.moduleRoot (roots member) kind module)
  | instanceRoot member kind allowed => exact .derived (.instanceRoot (roots member) kind allowed)
  | constructorRoot member call => exact .derived (.constructorRoot (roots member) call)
  | access body accesses present => exact .derived (.access (body trivial) accesses present)
  | read body edge present => exact .derived (.read (body trivial) edge present)
  | write body edge present => exact .derived (.write (body trivial) edge present)
  | call body edge made inherits found live =>
    exact .derived (.call (body trivial) edge (made nofun) inherits found live)
  | exactCall body edge call => exact .derived (.exactCall (body trivial) edge call)
  | instantiate body edge kind allowed =>
    exact .derived (.instantiate (body trivial) edge kind allowed)
  | loadModule body edge kind module => exact .derived (.loadModule (body trivial) edge kind module)
  | testInstance body edge present => exact .derived (.testInstance (body trivial) edge present)
  | classData body edge present => exact .derived (.classData (body trivial) edge present)
  | hostGlobal body edge => exact .derived (.hostGlobal (body trivial) edge)
  | initializer code found live => exact .derived (.initializer (code nofun) found live)
  | instanceCode made => exact .derived (.instanceCode (made nofun))
  | instanceData made inherits => exact .derived (.instanceData (made nofun) inherits)
  | moduleInstance loaded => exact .derived (.moduleInstance (loaded nofun))
  | moduleConstructor loaded call => exact .derived (.moduleConstructor (loaded nofun) call)
  | bodyOwner body => exact .derived (.bodyOwner (body trivial))

/-- Whether contracts are kept has no influence on the running program. -/
theorem Live.runs (roots : c.roots.toList ⊆ d.roots.toList) {fact : Fact Slot} (runs : fact.Runs)
    (live : p.Live c fact) : p.Live d fact :=
  live.least (closed_runs roots) runs

/-- The owner of a live fact is reached. -/
theorem Live.owner {fact : Fact Slot} {name : Name} (owner : fact.owner? Slot.owner = some name)
    (live : p.Live c fact) : p.Live c (.use name .reached) := by
  have complete : (State.run p c.toOptions c.roots).Complete p c := State.complete_run
  exact State.knows_run_iff.mp (complete.ownerReached owner (State.knows_run_iff.mpr live))

/-- If what runs in one program runs in another one of the same shape, its report says so. -/
theorem SameShape.shows {p q : Program} (alike : p.SameShape q)
    (goes : ∀ fact : Fact Slot, fact.Runs → p.Live c fact → q.Live d fact) {fact : Fact MemberRef}
    (runs : fact.Runs) (shown : (p.analyze c).Shows fact) : (q.analyze d).Shows fact := by
  obtain ⟨found, live, rfl⟩ := exists_live_of_shows shown
  have refs : p.ref = q.ref := funext alike.ref
  rw [named, refs, ← named]
  exact shows_of_live (goes found (Fact.runs_map.mp runs) live)

end Program

/-- The second report is the first one with contracts added: abstract members, and units that have
nothing but their place in the hierarchy. -/
structure Report.AddsContracts (r t : Report) : Prop where
  keeps : ∀ m, r.keeps m = t.keeps m
  members : ∀ u ∈ r.units, ∀ v ∈ t.units, u.name = v.name → u.members = v.members
  uses : ∀ name use, use ≠ .reached → r.has name use = t.has name use
  reads : ∀ name, r.reads name = t.reads name
  writes : ∀ name, r.writes name = t.writes name
  hostGlobals : r.hostGlobals = t.hostGlobals
  reached : ∀ name, r.isReached name = true → t.isReached name = true
  contracts : ∀ name, r.contracts name ⊆ t.contracts name
  defects : ∀ defect, Diagnostic.Listed r.diagnostics defect → Diagnostic.Listed t.diagnostics defect
  added : ∀ u ∈ t.units, r.isReached u.name = false →
    u.uses = [.reached] ∧ u.members = [] ∧ u.reads = [] ∧ u.writes = []

namespace Program

variable {p : Program} {c d : Config}

theorem contracts_mono (below : p.Below c p d) (name : Name) :
    (p.analyze c).contracts name ⊆ (p.analyze d).contracts name := by
  intro selector listed
  cases unit : (p.analyze c).unit? name with
  | none => simp [Report.contracts, unit] at listed
  | some r =>
    obtain ⟨u, found, reached, rfl⟩ := State.unit?_finish.mp unit
    obtain ⟨_, rfl⟩ := p.find?_eq_some_iff.mp found
    have still : (State.run p d.toOptions d.roots).Knows p (.use u.name .reached) :=
      State.knows_run_mono below reached
    have again : (p.analyze d).unit? u.name = _ := State.unit?_finish.mpr ⟨u, found, still, rfl⟩
    rw [Report.contracts, unit] at listed
    rw [Report.contracts, again]
    exact State.liveMembers_run_mono below found (.refl u) true listed

section Same

variable (same : ∀ fact : Fact Slot, fact.Runs → (p.Live c fact ↔ p.Live d fact))
include same

/-- Both reports say the same about what runs. -/
theorem shows_iff_of_same {fact : Fact MemberRef} (runs : fact.Runs) :
    (p.analyze c).Shows fact ↔ (p.analyze d).Shows fact := by
  constructor
  · exact (SameShape.refl p).shows (fun fact runs => (same fact runs).mp) runs
  · exact (SameShape.refl p).shows (fun fact runs => (same fact runs).mpr) runs

/-- A unit that is reached in the second report only has nothing that runs. -/
theorem added_of_same {r : UnitReport} (member : r ∈ (p.analyze d).units)
    (unreached : (p.analyze c).isReached r.name = false) :
    r.uses = [.reached] ∧ r.members = [] ∧ r.reads = [] ∧ r.writes = [] := by
  obtain ⟨u, present, reached, rfl⟩ := State.mem_units_finish.mp member
  have found := p.find?_eq_some_iff.mpr ⟨present, rfl⟩
  have dead : ∀ fact : Fact Slot, fact.owner? Slot.owner = some u.name → fact.Runs →
      ¬p.Live d fact := by
    intro fact owner runs live
    have knows := State.knows_run_iff.mpr (((same fact runs).mpr live).owner owner)
    rw [analyze, State.isReached_finish_run] at unreached
    exact Bool.false_ne_true (unreached.symm.trans knows)
  refine ⟨?_, ?_, ?_, ?_⟩
  · have unused : ∀ use, use ≠ .reached →
        (State.run p d.toOptions d.roots).has u.name use = false := by
      intro use other
      rw [← Bool.not_eq_true]
      exact fun used => dead (.use u.name use) rfl other (State.knows_run_iff.mp used)
    simp [State.unitReport, Use.all, reached, unused]
  · apply List.eq_nil_iff_forall_not_mem.mpr
    intro selector kept
    obtain ⟨i, m, stands, _, concrete, reached⟩ := State.mem_liveMembers_iff.mp kept
    have body : p.abstract? ⟨u.name, i⟩ = some false :=
      abstract?_eq_some_iff.mpr ⟨m, member?_eq_some_iff.mpr ⟨u, found, stands⟩, concrete⟩
    exact dead (.body ⟨u.name, i⟩) rfl trivial
      ((State.reached_run_iff (liveness?_of_body body)).mp reached)
  · apply List.eq_nil_iff_forall_not_mem.mpr
    exact fun field read => dead (.read u.name field) rfl trivial (State.knows_run_iff.mp read)
  · apply List.eq_nil_iff_forall_not_mem.mpr
    exact fun field write => dead (.write u.name field) rfl trivial (State.knows_run_iff.mp write)

/-- The bodies of a unit are listed alike. -/
theorem members_of_same {r t : UnitReport} (first : r ∈ (p.analyze c).units)
    (second : t ∈ (p.analyze d).units) (named : r.name = t.name) : r.members = t.members := by
  obtain ⟨u, present, _, rfl⟩ := State.mem_units_finish.mp first
  obtain ⟨v, also, _, rfl⟩ := State.mem_units_finish.mp second
  have found := p.find?_eq_some_iff.mpr ⟨present, rfl⟩
  have again := p.find?_eq_some_iff.mpr ⟨also, named.symm⟩
  obtain rfl := Option.some.inj (found.symm.trans again)
  refine State.liveMembers_run_eq (.refl p) found fun m fact body live => ?_
  obtain rfl := Option.some.inj (live.symm.trans (liveness?_of_body body))
  exact same _ trivial

theorem addsContracts_of_same (below : p.Below c p d) :
    (p.analyze c).AddsContracts (p.analyze d) where
  keeps m := by
    have shown : (p.analyze c).Shows (.body m) ↔ (p.analyze d).Shows (.body m) :=
      shows_iff_of_same same trivial
    exact Bool.eq_iff_iff.mpr shown
  members _ first _ second := members_of_same same first second
  uses name use other := by
    have shown : (p.analyze c).Shows (.use name use) ↔ (p.analyze d).Shows (.use name use) :=
      shows_iff_of_same same other
    exact Bool.eq_iff_iff.mpr shown
  reads name := by
    have shown : ∀ config, (p.analyze config).reads name = _ :=
      fun _ => State.fields_finish_run .read (fun _ => rfl) name
    rw [shown, shown]
    exact State.fields_run_eq .read fun _ => same _ trivial
  writes name := by
    have shown : ∀ config, (p.analyze config).writes name = _ :=
      fun _ => State.fields_finish_run .write (fun _ => rfl) name
    rw [shown, shown]
    exact State.fields_run_eq .write fun _ => same _ trivial
  hostGlobals := State.hostGlobals_run_eq fun _ => same _ trivial
  reached name := by
    rw [analyze, State.isReached_finish_run, analyze, State.isReached_finish_run]
    exact @State.knows_run_mono _ _ _ _ below (.use name .reached)
  contracts := contracts_mono below
  defects _ := State.listed_run_mono below
  added _ := added_of_same same

end Same

end Program

/-- The report with contracts is the report without them, with contracts added. -/
theorem analyze_addsContracts (summaries : List UnitSummary) (missing : MissingPolicy)
    (roots : RootSet) :
    (analyze summaries { missing := missing, keepContracts := false, roots := roots }).AddsContracts
      (analyze summaries { missing := missing, keepContracts := true, roots := roots }) := by
  have unmoved : roots.toList ⊆ roots.toList := List.Subset.refl _
  refine Program.addsContracts_of_same (fun fact runs => ?_) (Program.below_of_roots id nofun unmoved)
  constructor
  · exact Program.Live.runs unmoved runs
  · exact Program.Live.runs unmoved runs

/-- An exported method calls a method that an interface declares. Another interface has two members
of that name, and a lookup finds the abstract one. -/
def onlyDeclared : List UnitSummary :=
  [{ name := ⟨20⟩, kind := .plainClass, isExported := true,
     members := [{ selector := .static ⟨30⟩, isExported := true,
                   dependencies := { calls := [(⟨21⟩, [⟨31⟩])] } }] },
   { name := ⟨21⟩, kind := .interface, interfaces := [⟨22⟩] },
   { name := ⟨22⟩, kind := .interface,
     members := [{ selector := .method ⟨31⟩ }, { selector := .method ⟨31⟩, isAbstract := true }] }]

example :
    (analyze onlyDeclared { keepContracts := false }).isReached ⟨22⟩ = false ∧
      (analyze onlyDeclared {}).contracts ⟨22⟩ = [.method ⟨31⟩] ∧
      (analyze onlyDeclared {}).keeps ⟨⟨22⟩, .method ⟨31⟩⟩ = false := by decide

end TreeShake
