import TreeShake.Proofs.Agreement
import TreeShake.Proofs.Exactness

set_option autoImplicit false

/-!
What a run ends with is determined by the live facts. They say which members are reached and which
names its lists hold, and the lists are ascending, so that runs in which the same is live show the
same, in whatever order they found it.
-/

namespace TreeShake

namespace State

variable {p q : Program} {c d : Config} {o : Options} {s t : State}

/-- The lists of a state that its report shows are ascending. -/
structure Tidy (s : State) : Prop where
  fields : ∀ access owner, Ascending.By id ((s.fields access).get owner)
  hostGlobals : Ascending.By id s.hostGlobals

theorem tidy_initial : Tidy {} where
  fields access owner := by cases access <;> simp [State.fields, TotalMap.get_empty, Ascending.By]
  hostGlobals := List.Pairwise.nil

theorem Change.tidy (change : Change p o s t) (tidy : Tidy s) : Tidy t := by
  cases change with
  | spread spread =>
    cases spread with
    | mark | report | ask => exact ⟨tidy.fields, tidy.hostGlobals⟩
    | enqueue m =>
      unfold enqueue
      split
      · split
        · exact tidy
        · exact ⟨tidy.fields, tidy.hostGlobals⟩
        · exact ⟨tidy.fields, tidy.hostGlobals⟩
      · exact tidy
  | logCall | addSubclass => exact ⟨tidy.fields, tidy.hostGlobals⟩
  | accessField access owner field =>
    refine ⟨fun kind name => ?_, tidy.hostGlobals⟩
    rw [get_accessField]
    split
    · exact Ascending.by_insert field (tidy.fields kind name)
    · exact tidy.fields kind name
  | useGlobal name => exact ⟨tidy.fields, Ascending.by_insert name tidy.hostGlobals⟩

theorem Evolves.tidy (evolves : Evolves p o s t) (tidy : Tidy s) : Tidy t := by
  induction evolves with
  | refl => exact tidy
  | tail _ change ih => exact change.tidy ih

theorem tidy_run (roots : RootSet) : Tidy (run p o roots) := by
  apply run_induction roots tidy_initial
  · exact fun seed s tidy => (evolves_plant seed s).tidy tidy
  · intro s tidy
    rcases s.step_cases with ⟨_, same⟩ | ⟨m, rest, _, same⟩
    · rwa [same]
    · rw [same]
      exact (evolves_expand ..).tidy ⟨tidy.fields, tidy.hostGlobals⟩

/-! Runs in which the same is live. -/

theorem has_run_eq {name : Name} {use : Use}
    (same : p.Live c (.use name use) ↔ q.Live d (.use name use)) :
    (run p c.toOptions c.roots).has name use = (run q d.toOptions d.roots).has name use := by
  rw [Bool.eq_iff_iff]
  exact (knows_run_iff.trans same).trans knows_run_iff.symm

theorem fields_run_eq (access : Access) {owner : Name}
    (same : ∀ field, p.Live c (access.fact owner field) ↔ q.Live d (access.fact owner field)) :
    ((run p c.toOptions c.roots).fields access).get owner =
      ((run q d.toOptions d.roots).fields access).get owner := by
  apply Ascending.eq_of_mem_iff ((tidy_run c.roots).fields access owner)
    ((tidy_run d.roots).fields access owner)
  intro field
  rw [← knows_access_iff, ← knows_access_iff, knows_run_iff, knows_run_iff, same]

theorem hostGlobals_run_eq (same : ∀ name, p.Live c (.global name) ↔ q.Live d (.global name)) :
    (run p c.toOptions c.roots).hostGlobals = (run q d.toOptions d.roots).hostGlobals := by
  apply Ascending.eq_of_mem_iff (tidy_run c.roots).hostGlobals (tidy_run d.roots).hostGlobals
  exact fun name => (knows_run_iff.trans (same name)).trans knows_run_iff.symm

/-! What the report of a run says of a unit. -/

theorem isReached_finish_run (name : Name) :
    ((run p c.toOptions c.roots).finish p).isReached name =
      (run p c.toOptions c.roots).has name .reached := by
  rw [Bool.eq_iff_iff, Report.isReached, Option.isSome_iff_exists]
  constructor
  · rintro ⟨r, unit⟩
    obtain ⟨u, _, reached, _⟩ := unit?_finish.mp unit
    exact reached
  · intro reached
    have live : p.Live c (.use name .reached) := knows_run_iff.mp reached
    obtain ⟨u, found⟩ := p.contains_iff.mp live.declaredFact
    exact ⟨_, unit?_finish.mpr ⟨u, found, reached, rfl⟩⟩

/-- The accessed fields of a unit are shown as they are, because a unit without any has none to
show. -/
theorem fields_finish_run (access : Access) {view : UnitReport → List Name}
    (viewed : ∀ u, view ((run p c.toOptions c.roots).unitReport u) =
      ((run p c.toOptions c.roots).fields access).get u.name) (name : Name) :
    ((((run p c.toOptions c.roots).finish p).unit? name).map view).getD [] =
      ((run p c.toOptions c.roots).fields access).get name := by
  have complete : (run p c.toOptions c.roots).Complete p c := complete_run
  cases unit : ((run p c.toOptions c.roots).finish p).unit? name with
  | some r =>
    obtain ⟨u, found, _, rfl⟩ := unit?_finish.mp unit
    rw [Option.map_some, Option.getD_some, viewed, (p.find?_eq_some_iff.mp found).2]
  | none =>
    rw [Option.map_none, Option.getD_none, eq_comm, List.eq_nil_iff_forall_not_mem]
    intro field member
    have owes : (run p c.toOptions c.roots).Owes p (.fields name) :=
      ⟨access, List.ne_nil_of_mem member⟩
    have reached := complete.settled.reached (complete.settles owes)
    rw [← isReached_finish_run, Report.isReached, unit] at reached
    cases reached

/-- The live members of a unit are listed alike if the same ones are live. -/
theorem liveMembers_run_eq (alike : p.SameShape q) {u : UnitSummary}
    (found : p.find? u.name = some u) {isAbstract : Bool}
    (same : ∀ m fact, p.abstract? m = some isAbstract → p.liveness? m = some fact →
      (p.Live c fact ↔ q.Live d fact)) :
    (run p c.toOptions c.roots).liveMembers u isAbstract =
      (run q d.toOptions d.roots).liveMembers u isAbstract := by
  unfold liveMembers
  congr 1
  apply List.filter_congr
  rintro ⟨m, i⟩ member
  by_cases wanted : m.isAbstract = isAbstract
  · have present : p.member? ⟨u.name, i⟩ = some m :=
      Program.member?_eq_some_iff.mpr ⟨u, found, List.mem_zipIdx_iff_getElem?.mp member⟩
    have declared : p.abstract? ⟨u.name, i⟩ = some isAbstract :=
      Program.abstract?_eq_some_iff.mpr ⟨m, present, wanted⟩
    obtain ⟨fact, live⟩ := Program.isSome_member?_iff.mp (Option.isSome_of_eq_some present)
    have other := alike.liveness? ⟨u.name, i⟩ ▸ live
    have reached := ((reached_run_iff live).trans (same _ fact declared live)).trans
      (reached_run_iff other).symm
    rw [decide_eq_decide.mpr reached]
  · simp [wanted]

section Units

variable (agree : p.Agree q) (same : ∀ fact, p.Live c fact ↔ q.Live d fact)
include agree same

theorem unitReport_run_eq {u : UnitSummary} (found : p.find? u.name = some u) :
    (run p c.toOptions c.roots).unitReport u = (run q d.toOptions d.roots).unitReport u := by
  have uses : (run p c.toOptions c.roots).has u.name = (run q d.toOptions d.roots).has u.name :=
    funext fun use => has_run_eq (same (.use u.name use))
  have reads : (run p c.toOptions c.roots).reads.get u.name = _ :=
    fields_run_eq .read fun field => same (.read u.name field)
  have writes : (run p c.toOptions c.roots).writes.get u.name = _ :=
    fields_run_eq .write fun field => same (.write u.name field)
  have members : ∀ isAbstract, (run p c.toOptions c.roots).liveMembers u isAbstract = _ :=
    fun _ => liveMembers_run_eq agree.sameShape found fun _ fact _ _ => same fact
  simp only [unitReport, members, uses, reads, writes]
  rfl

theorem units_run_eq :
    ((run p c.toOptions c.roots).finish p).units =
      ((run q d.toOptions d.roots).finish q).units := by
  have listed : ∀ (p : Program) (u : UnitSummary), u ∈ p.units ↔ p.find? u.name = some u := by
    simp [Program.find?_eq_some_iff]
  apply Ascending.eq_of_mem_iff ascending_units_finish ascending_units_finish
  intro r
  rw [mem_units_finish, mem_units_finish]
  refine exists_congr fun u => ?_
  rw [listed, listed, ← agree.find?, has_run_eq (same (.use u.name .reached))]
  refine and_congr_right fun found => ?_
  rw [unitReport_run_eq agree same found]

end Units

end State

/-- Nothing is listed where missing symbols are ignored. -/
theorem Program.diagnostics_eq_nil {p : Program} {config : Config}
    (ignoring : config.missing = .ignore) : (p.analyze config).diagnostics = [] := by
  apply List.eq_nil_iff_forall_not_mem.mpr
  intro d member
  have listed : Diagnostic.Listed (p.analyze config).diagnostics d.defect := ⟨d, member, rfl⟩
  obtain ⟨reporting, _⟩ := State.listed_run_iff.mp listed
  exact absurd (ignoring.symm.trans reporting) nofun

end TreeShake
