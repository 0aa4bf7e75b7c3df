import TreeShake.Link
import TreeShake.Proofs.Justification
import TreeShake.Proofs.KeyedLists

set_option autoImplicit false

/-!
The report of the analysis shows exactly the live facts of the program: it is closed under the rules
of liveness, so no live code is lost, and it is below every closed family, so no dead code is kept.

A report names members by their selectors. Each fact that it shows is that of some live member,
whatever the order of the members is. If the selectors of a unit are in ascending order, a selector
names one member, and the report determines which members are live.
-/

namespace TreeShake

/-- The facts that a report states. -/
def Report.Shows (r : Report) : Fact MemberRef → Prop
  | .use name use => r.has name use = true
  | .body m => r.keeps m = true
  | .contract m => m.selector ∈ r.contracts m.owner
  | .read owner field => field ∈ r.reads owner
  | .write owner field => field ∈ r.writes owner
  | .global name => name ∈ r.hostGlobals

instance (r : Report) : DecidablePred r.Shows
  | .use name use => inferInstanceAs (Decidable (r.has name use = true))
  | .body m => inferInstanceAs (Decidable (r.keeps m = true))
  | .contract m => inferInstanceAs (Decidable (m.selector ∈ r.contracts m.owner))
  | .read owner field => inferInstanceAs (Decidable (field ∈ r.reads owner))
  | .write owner field => inferInstanceAs (Decidable (field ∈ r.writes owner))
  | .global name => inferInstanceAs (Decidable (name ∈ r.hostGlobals))

/-- The unit that a fact is about. -/
def Fact.owner? {μ : Type} (owner : μ → Name) : Fact μ → Option Name
  | .use name _ => some name
  | .body m | .contract m => some (owner m)
  | .read owner _ | .write owner _ => some owner
  | .global _ => none

theorem Use.mem_all (use : Use) : use ∈ Use.all := by
  cases use <;> decide

namespace Program

variable {p : Program} {config : Config}

/-- The members of each unit stand in the order of their selectors. -/
def Ordered (p : Program) : Prop := ∀ u ∈ p.units, Ascending.By MemberSummary.selector u.members

/-- The fact, with members named by reference. -/
def named (p : Program) (fact : Fact Slot) : Fact MemberRef := fact.map p.ref

/-- The facts about the records of a program that a report states. -/
def Shown (p : Program) (r : Report) (fact : Fact Slot) : Prop :=
  p.Declared fact ∧ r.Shows (p.named fact)

/-- In ascending order a reference to a member finds it. -/
theorem slot?_ref (ordered : p.Ordered) {m : Slot} {summary : MemberSummary}
    (present : p.member? m = some summary) : p.slot? (p.ref m) = some m := by
  obtain ⟨u, found, stands⟩ := member?_eq_some_iff.mp present
  have ascending := ordered u (p.find?_eq_some_iff.mp found).1
  have position := Ascending.position?_of_getElem? ascending stands
  rw [ref_of_member? present, slot?, found, Option.bind_some, UnitSummary.position?, position,
    Option.map_some]

theorem eq_of_ref_eq (ordered : p.Ordered) {m n : Slot} {isAbstract isOther : Bool}
    (declared : p.abstract? m = some isAbstract) (other : p.abstract? n = some isOther)
    (same : p.ref m = p.ref n) : m = n := by
  obtain ⟨_, present, _⟩ := abstract?_eq_some_iff.mp declared
  obtain ⟨_, also, _⟩ := abstract?_eq_some_iff.mp other
  have found := slot?_ref ordered present
  rw [same, slot?_ref ordered also] at found
  exact (Option.some.inj found).symm

theorem eq_of_named_eq (ordered : p.Ordered) {first second : Fact Slot}
    (declared : p.Declared first) (other : p.Declared second)
    (same : p.named first = p.named second) : first = second := by
  cases first with
  | use | read | write | global =>
    cases second with
    | use | read | write | global => cases same <;> rfl
    | body | contract => cases same
  | body m =>
    cases second with
    | body n => rw [eq_of_ref_eq ordered declared other (Fact.body.inj same)]
    | use | contract | read | write | global => cases same
  | contract m =>
    cases second with
    | contract n => rw [eq_of_ref_eq ordered declared other (Fact.contract.inj same)]
    | use | body | read | write | global => cases same

end Program

namespace State

variable {p : Program} {config : Config} {s : State}

theorem mem_units_finish {r : UnitReport} :
    r ∈ (s.finish p).units ↔ ∃ u ∈ p.units, s.has u.name .reached = true ∧ s.unitReport u = r := by
  have distinct : (((p.units.filter fun u => s.has u.name .reached).map s.unitReport).map
      UnitReport.name).Nodup := by
    rw [List.map_map]
    exact p.distinct.sublist (List.filter_sublist.map UnitSummary.name)
  simp only [finish, Ascending.mem_collect (fun _ _ => rfl) distinct, List.mem_map, List.mem_filter,
    and_assoc]

theorem ascending_units_finish : Ascending.By UnitReport.name (s.finish p).units :=
  Ascending.by_collect (fun _ _ => rfl) _

theorem unit?_finish {name : Name} {r : UnitReport} :
    (s.finish p).unit? name = some r ↔
      ∃ u, p.find? name = some u ∧ s.has name .reached = true ∧ s.unitReport u = r := by
  rw [Report.unit?, Ascending.find?_eq_some_iff ascending_units_finish, mem_units_finish]
  simp only [p.find?_eq_some_iff]
  constructor
  · rintro ⟨⟨u, member, reached, rfl⟩, rfl⟩
    exact ⟨u, ⟨member, rfl⟩, reached, rfl⟩
  · rintro ⟨u, ⟨member, rfl⟩, reached, rfl⟩
    exact ⟨⟨u, member, reached, rfl⟩, rfl⟩

theorem mem_liveMembers_iff {u : UnitSummary} {isAbstract : Bool} {selector : Selector} :
    selector ∈ s.liveMembers u isAbstract ↔ ∃ i m, u.members[i]? = some m ∧
      m.selector = selector ∧ m.isAbstract = isAbstract ∧ s.progress.get ⟨u.name, i⟩ = .reached := by
  simp only [liveMembers, List.mem_map, List.mem_filter, Bool.and_eq_true, decide_eq_true_eq,
    Prod.exists, List.mem_zipIdx_iff_getElem?]
  constructor
  · rintro ⟨m, i, ⟨stands, reached, same⟩, rfl⟩
    exact ⟨i, m, stands, rfl, same, reached⟩
  · rintro ⟨i, m, stands, rfl, same, reached⟩
    exact ⟨m, i, ⟨stands, reached, same⟩, rfl⟩

/-- What is listed is referred to by some slot that is reached. -/
theorem mem_liveMembers {u : UnitSummary} {m : MemberRef} {isAbstract : Bool}
    (found : p.find? m.owner = some u) :
    m.selector ∈ s.liveMembers u isAbstract ↔
      ∃ slot, p.ref slot = m ∧ p.abstract? slot = some isAbstract ∧
        s.progress.get slot = .reached := by
  obtain ⟨owner, selector⟩ := m
  obtain ⟨_, rfl⟩ := p.find?_eq_some_iff.mp found
  rw [mem_liveMembers_iff]
  constructor
  · rintro ⟨i, summary, stands, rfl, rfl, reached⟩
    have present : p.member? ⟨u.name, i⟩ = some summary :=
      Program.member?_eq_some_iff.mpr ⟨u, found, stands⟩
    exact ⟨⟨u.name, i⟩, Program.ref_of_member? present,
      Program.abstract?_eq_some_iff.mpr ⟨summary, present, rfl⟩, reached⟩
  · rintro ⟨slot, same, declared, reached⟩
    obtain ⟨summary, present, rfl⟩ := Program.abstract?_eq_some_iff.mp declared
    rw [Program.ref_of_member? present, MemberRef.mk.injEq] at same
    obtain ⟨v, again, stands⟩ := Program.member?_eq_some_iff.mp present
    rw [same.1] at again
    obtain rfl := Option.some.inj (found.symm.trans again)
    exact ⟨slot.position, summary, stands, same.2, rfl, same.1 ▸ reached⟩

/-- The unit of a fact that is shown is reported as the state has it. -/
theorem unit_of_shows {fact : Fact MemberRef} {name : Name}
    (owner : fact.owner? MemberRef.owner = some name) (shown : (s.finish p).Shows fact) :
    ∃ u, p.find? name = some u ∧ u.name = name ∧
      (s.finish p).unit? name = some (s.unitReport u) := by
  cases unit : (s.finish p).unit? name with
  | some r =>
    obtain ⟨u, found, _, rfl⟩ := unit?_finish.mp unit
    exact ⟨u, found, (p.find?_eq_some_iff.mp found).2, rfl⟩
  | none =>
    cases fact with
    | global => cases owner
    | use | body | contract | read | write =>
      injection owner with same
      subst same
      simp [Report.Shows, Report.has, Report.keeps, Report.contracts, Report.reads, Report.writes,
        unit] at shown

theorem Complete.ownerReached (complete : s.Complete p config) {fact : Fact Slot} {name : Name}
    (owner : fact.owner? Slot.owner = some name) (knows : s.Knows p fact) :
    s.has name .reached = true := by
  cases fact with
  | use other use =>
    obtain rfl : other = name := Option.some.inj owner
    exact complete.settled.reached knows
  | body m =>
    obtain rfl : m.owner = name := Option.some.inj owner
    exact complete.settled.reached (complete.closed _ (.bodyOwner knows))
  | contract m =>
    obtain rfl : m.owner = name := Option.some.inj owner
    exact complete.closed _ (.contractOwner knows)
  | read other field =>
    obtain rfl : other = name := Option.some.inj owner
    have owes : s.Owes p (.fields other) := ⟨.read, List.ne_nil_of_mem knows⟩
    exact complete.settled.reached (complete.settles owes)
  | write other field =>
    obtain rfl : other = name := Option.some.inj owner
    have owes : s.Owes p (.fields other) := ⟨.write, List.ne_nil_of_mem knows⟩
    exact complete.settled.reached (complete.settles owes)
  | global => cases owner

/-- The unit of a fact that is known is reported. -/
theorem Complete.unit?_finish (complete : s.Complete p config) {fact : Fact Slot} {name : Name}
    (owner : fact.owner? Slot.owner = some name) (present : p.contains name = true)
    (knows : s.Knows p fact) :
    ∃ u, p.find? name = some u ∧ u.name = name ∧
      (s.finish p).unit? name = some (s.unitReport u) := by
  obtain ⟨u, found⟩ := p.contains_iff.mp present
  exact ⟨u, found, (p.find?_eq_some_iff.mp found).2,
    State.unit?_finish.mpr ⟨u, found, complete.ownerReached owner knows, rfl⟩⟩

/-- What a complete state knows is shown. -/
theorem Complete.shows (complete : s.Complete p config) {fact : Fact Slot}
    (declared : p.Declared fact) (knows : s.Knows p fact) : (s.finish p).Shows (p.named fact) := by
  cases fact with
  | global name => exact knows
  | use name use =>
    obtain ⟨u, _, rfl, unit⟩ := complete.unit?_finish rfl declared knows
    simpa [Program.named, Fact.map, Report.Shows, Knows, Report.has, UnitReport.has, unitReport,
      Use.mem_all, unit] using knows
  | body m =>
    obtain ⟨u, found, _, unit⟩ :=
      complete.unit?_finish rfl (Program.contains_of_abstract? declared) knows
    have listed : (p.ref m).selector ∈ s.liveMembers u false :=
      (mem_liveMembers found).mpr ⟨m, rfl, declared, (complete.reached_iff_seen m).mpr knows.1⟩
    simpa [Program.named, Fact.map, Report.Shows, Report.keeps, UnitReport.keeps, unitReport, unit]
      using listed
  | contract m =>
    obtain ⟨u, found, _, unit⟩ :=
      complete.unit?_finish rfl (Program.contains_of_abstract? declared) knows
    have listed : (p.ref m).selector ∈ s.liveMembers u true :=
      (mem_liveMembers found).mpr ⟨m, rfl, declared, (complete.reached_iff_seen m).mpr knows.1⟩
    simpa [Program.named, Fact.map, Report.Shows, Report.contracts, unitReport, unit] using listed
  | read owner field =>
    obtain ⟨u, _, rfl, unit⟩ := complete.unit?_finish rfl declared knows
    simpa [Program.named, Fact.map, Report.Shows, Knows, fields, Report.reads, unitReport, unit]
      using knows
  | write owner field =>
    obtain ⟨u, _, rfl, unit⟩ := complete.unit?_finish rfl declared knows
    simpa [Program.named, Fact.map, Report.Shows, Knows, fields, Report.writes, unitReport, unit]
      using knows

/-- What is shown is known of some slot. -/
theorem Complete.exists_knows (complete : s.Complete p config) {fact : Fact MemberRef}
    (shown : (s.finish p).Shows fact) :
    ∃ found, p.Declared found ∧ s.Knows p found ∧ p.named found = fact := by
  cases fact with
  | global name => exact ⟨.global name, trivial, shown, rfl⟩
  | use name use =>
    obtain ⟨u, found, rfl, unit⟩ := unit_of_shows rfl shown
    refine ⟨.use u.name use, p.contains_of_find? found, ?_, rfl⟩
    simpa [Report.Shows, Knows, Report.has, UnitReport.has, unitReport, Use.mem_all, unit]
      using shown
  | body m =>
    obtain ⟨u, found, _, unit⟩ := unit_of_shows rfl shown
    have listed : m.selector ∈ s.liveMembers u false := by
      simpa [Report.Shows, Report.keeps, UnitReport.keeps, unitReport, unit] using shown
    obtain ⟨slot, rfl, body, reached⟩ := (mem_liveMembers found).mp listed
    exact ⟨.body slot, body, ⟨(complete.reached_iff_seen slot).mp reached, body⟩, rfl⟩
  | contract m =>
    obtain ⟨u, found, _, unit⟩ := unit_of_shows rfl shown
    have listed : m.selector ∈ s.liveMembers u true := by
      simpa [Report.Shows, Report.contracts, unitReport, unit] using shown
    obtain ⟨slot, rfl, contract, reached⟩ := (mem_liveMembers found).mp listed
    exact ⟨.contract slot, contract, ⟨(complete.reached_iff_seen slot).mp reached, contract⟩, rfl⟩
  | read owner field =>
    obtain ⟨u, found, rfl, unit⟩ := unit_of_shows rfl shown
    refine ⟨.read u.name field, p.contains_of_find? found, ?_, rfl⟩
    simpa [Report.Shows, Knows, fields, Report.reads, unitReport, unit] using shown
  | write owner field =>
    obtain ⟨u, found, rfl, unit⟩ := unit_of_shows rfl shown
    refine ⟨.write u.name field, p.contains_of_find? found, ?_, rfl⟩
    simpa [Report.Shows, Knows, fields, Report.writes, unitReport, unit] using shown

end State

namespace Program

variable {p : Program} {config : Config}

theorem shows_of_live {fact : Fact Slot} (live : p.Live config fact) :
    (p.analyze config).Shows (p.named fact) :=
  State.complete_run.shows live.declaredFact (State.knows_run_iff.mpr live)

theorem exists_live_of_shows {fact : Fact MemberRef} (shown : (p.analyze config).Shows fact) :
    ∃ found, p.Live config found ∧ p.named found = fact := by
  obtain ⟨found, _, knows, same⟩ := State.complete_run.exists_knows shown
  exact ⟨found, State.knows_run_iff.mp knows, same⟩

/-- The report says of a reference what is live of the member that it finds. -/
theorem shows_analyze_iff (ordered : p.Ordered) {fact : Fact MemberRef} :
    (p.analyze config).Shows fact ↔ p.LiveBy config fact := by
  constructor
  · intro shown
    obtain ⟨found, live, rfl⟩ := exists_live_of_shows shown
    cases found with
    | use | read | write | global => exact live
    | body m | contract m =>
      obtain ⟨_, present, _⟩ := abstract?_eq_some_iff.mp live.declaredFact
      exact ⟨m, slot?_ref ordered present, live⟩
  · intro live
    cases fact with
    | use | read | write | global => exact shows_of_live live
    | body m | contract m =>
      obtain ⟨slot, found, live⟩ := live
      rw [← ref_of_slot? found]
      exact shows_of_live live

/-- The report states exactly the live facts. -/
theorem shown_analyze_iff (ordered : p.Ordered) {fact : Fact Slot} :
    p.Shown (p.analyze config) fact ↔ p.Live config fact := by
  constructor
  · rintro ⟨declared, shown⟩
    obtain ⟨found, live, same⟩ := exists_live_of_shows shown
    rwa [← eq_of_named_eq ordered live.declaredFact declared same]
  · exact fun live => ⟨live.declaredFact, shows_of_live live⟩

theorem shown_analyze (ordered : p.Ordered) : p.Shown (p.analyze config) = p.Live config :=
  funext fun _ => propext (shown_analyze_iff ordered)

theorem mem_of_mem_firsts {units : List UnitSummary} {u : UnitSummary}
    (member : u ∈ UnitSummary.firsts units) : u ∈ units := by
  induction units with
  | nil => exact member
  | cons first rest ih =>
    rcases List.mem_cons.mp member with rfl | member
    · exact List.mem_cons_self
    · exact List.mem_cons_of_mem _ (ih (List.mem_filter.mp member).1)

theorem ordered_ofUnits {summaries : List UnitSummary}
    (ascending : ∀ u ∈ summaries, Ascending.By MemberSummary.selector u.members) :
    (ofUnits summaries).Ordered :=
  fun u member => ascending u (mem_of_mem_firsts member)

end Program

/-- Two classes that inherit from each other. An exported method of the first calls a method that
only the second one declares. -/
def reciprocal : List UnitSummary :=
  [{ name := ⟨20⟩, kind := .plainClass, superclass := some ⟨21⟩, isExported := true,
     members := [{ selector := .method ⟨30⟩, isExported := true,
                   dependencies := { calls := [(⟨21⟩, [⟨31⟩])] } }] },
   { name := ⟨21⟩, kind := .plainClass, superclass := some ⟨20⟩,
     members := [{ selector := .method ⟨31⟩ }, { selector := .method ⟨32⟩ }] }]

theorem ascending_reciprocal :
    ∀ u ∈ reciprocal, Ascending.By MemberSummary.selector u.members := by
  unfold Ascending.By
  decide

/-- The report of the analysis is closed under the rules of liveness: no live code is lost. -/
theorem analyze_closed {summaries : List UnitSummary}
    (ascending : ∀ u ∈ summaries, Ascending.By MemberSummary.selector u.members) (config : Config) :
    (Program.ofUnits summaries).Closed config
      ((Program.ofUnits summaries).Shown (analyze summaries config)) := by
  have same : (Program.ofUnits summaries).Shown (analyze summaries config) = _ :=
    Program.shown_analyze (Program.ordered_ofUnits ascending)
  rw [same]
  exact fun _ => .derived

-- The report is closed although it leaves out a method that nobody calls.
theorem analyze_closed_reciprocal :
    (Program.ofUnits reciprocal).Closed {}
        ((Program.ofUnits reciprocal).Shown (analyze reciprocal {})) ∧
      (analyze reciprocal {}).keeps ⟨⟨21⟩, .method ⟨32⟩⟩ = false :=
  ⟨analyze_closed ascending_reciprocal {}, by decide⟩

/-- Each fact in the report of the analysis has a derivation: no dead code is kept. -/
theorem live_of_shows_analyze {summaries : List UnitSummary} {config : Config}
    {fact : Fact MemberRef} (shown : (analyze summaries config).Shows fact) :
    ∃ found, (Program.ofUnits summaries).Live config found ∧
      (Program.ofUnits summaries).named found = fact :=
  Program.exists_live_of_shows shown

theorem live_of_shows_reciprocal :
    (analyze reciprocal {}).Shows (.body ⟨⟨21⟩, .method ⟨31⟩⟩) ∧
      ∃ found, (Program.ofUnits reciprocal).Live {} found ∧
        (Program.ofUnits reciprocal).named found = .body ⟨⟨21⟩, .method ⟨31⟩⟩ := by
  have shown : (analyze reciprocal {}).Shows (.body ⟨⟨21⟩, .method ⟨31⟩⟩) :=
    show (analyze reciprocal {}).keeps ⟨⟨21⟩, .method ⟨31⟩⟩ = true by decide
  exact ⟨shown, live_of_shows_analyze shown⟩

end TreeShake
