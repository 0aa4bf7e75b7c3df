import TreeShake.Proofs.Comparison
import TreeShake.Reachability.Index

set_option autoImplicit false

/-!
What is asked of a report is answered from the state in which the analysis ended. The lists of a
report are ascending: the units because each has a name of its own, and the members of a unit because
leaving out members keeps their order. So a unit stands where the index says, and a search that
halves the list of members misses none of them.
-/

namespace TreeShake

/-- The report of a unit gives what a state holds of the declared unit. -/
structure UnitReport.Mirrors (r : UnitReport) (u : UnitSummary) (s : State) : Prop where
  name : r.name = u.name
  kind : r.kind = u.kind
  has : ∀ use, r.has use = s.has u.name use
  members : Ascending.By id r.members
  contracts : Ascending.By id r.contracts
  disjoint : r.members.Disjoint r.contracts
  mem_members : ∀ selector, selector ∈ r.members ↔ ∃ i m, u.members[i]? = some m ∧
    m.selector = selector ∧ m.isAbstract = false ∧ s.progress.get ⟨u.name, i⟩ = .reached
  mem_contracts : ∀ selector, selector ∈ r.contracts ↔ ∃ i m, u.members[i]? = some m ∧
    m.selector = selector ∧ m.isAbstract = true ∧ s.progress.get ⟨u.name, i⟩ = .reached
  reads : r.reads = s.reads.get u.name ∧ Ascending.By id r.reads
  writes : r.writes = s.writes.get u.name ∧ Ascending.By id r.writes

/-- A report lists the units that a state has reached, each as it is declared first. -/
structure Report.Mirrors (r : Report) (summaries : List UnitSummary) (s : State) : Prop where
  ascending : Ascending.By UnitReport.name r.units
  reached : ∀ name, name ∈ r.reachedUnits ↔ s.has name .reached = true
  units : ∀ unit ∈ r.units, ∃ u, summaries.find? (fun u => u.name = unit.name) = some u ∧
    unit.Mirrors u s
  hostGlobals : r.hostGlobals = s.hostGlobals ∧ Ascending.By id r.hostGlobals

/-- An index answers from the report of the unit that has the name, and with nothing if there is
none. -/
structure Index.Answers (index : Index) (units : List UnitReport) : Prop where
  unit? : ∀ name u, index.unit? name = some u ↔ u ∈ units ∧ u.name = name
  present : ∀ name u, index.unit? name = some u →
    index.isReached name = true ∧ (∀ use, index.has name use = u.has use) ∧
    index.reads name = u.reads ∧ index.writes name = u.writes ∧ index.contracts name = u.contracts
  absent : ∀ name, index.unit? name = none →
    index.isReached name = false ∧ (∀ use, index.has name use = false) ∧
    index.reads name = [] ∧ index.writes name = [] ∧ index.contracts name = []
  keeps : ∀ m, index.keeps m = true ↔ ∃ u, index.unit? m.owner = some u ∧ m.selector ∈ u.members

/-- An index answers what a state holds, also of the units that are not reached. -/
structure Index.Agrees (index : Index) (p : Program) (s : State) : Prop where
  isReached : ∀ name, index.isReached name = s.has name .reached
  has : ∀ name use, index.has name use = s.has name use
  reads : ∀ name, index.reads name = s.reads.get name
  writes : ∀ name, index.writes name = s.writes.get name
  keeps : ∀ m, index.keeps m = true ↔
    ∃ slot, p.slot? m = some slot ∧ p.abstract? slot = some false ∧ s.progress.get slot = .reached
  contracts : ∀ m, m.selector ∈ index.contracts m.owner ↔
    ∃ slot, p.slot? m = some slot ∧ p.abstract? slot = some true ∧ s.progress.get slot = .reached

namespace Report

variable {r : Report}

theorem isReached_iff (name : Name) : r.isReached name = true ↔ name ∈ r.reachedUnits := by
  simp [isReached, unit?, reachedUnits]

theorem keeps_iff {m : MemberRef} :
    r.keeps m = true ↔ ∃ u, r.unit? m.owner = some u ∧ m.selector ∈ u.members := by
  simp [keeps, UnitReport.keeps, Option.any_eq_true]

theorem isReached_index (name : Name) : r.index.isReached name = r.isReached name := by
  rw [Bool.eq_iff_iff, isReached_iff, Index.isReached, index, Std.TreeMap.contains_ofList,
    List.zipIdx_map_fst, List.contains_iff_mem]

section Ascending

variable (ascending : Ascending.By UnitReport.name r.units)
include ascending

theorem unit?_eq_some_iff {name : Name} {u : UnitReport} :
    r.unit? name = some u ↔ u ∈ r.units ∧ u.name = name :=
  Ascending.find?_eq_some_iff ascending

theorem getElem?_positions {position : Nat} {name : Name}
    (stands : r.reachedUnits[position]? = some name) :
    r.index.positions[name]? = some position := by
  have increasing : (r.reachedUnits.zipIdx.map Prod.fst).Pairwise
      fun earlier later => compare earlier later = .lt := by
    rw [List.zipIdx_map_fst]
    exact List.pairwise_map.mpr ascending
  have distinct : r.reachedUnits.zipIdx.Pairwise fun a b => ¬ compare a.1 b.1 = .eq := by
    refine (List.pairwise_map.mp increasing).imp ?_
    intro a b lower
    simp [lower]
  apply Std.TreeMap.getElem?_ofList_of_mem Std.ReflCmp.compare_self distinct
  exact List.mem_zipIdx_iff_getElem?.mpr stands

/-- Where the index says stands the unit that a search through the list finds. -/
theorem unit?_index (name : Name) : r.index.unit? name = r.unit? name := by
  cases unit : r.unit? name with
  | some u =>
    obtain ⟨member, rfl⟩ := (unit?_eq_some_iff ascending).mp unit
    obtain ⟨position, stands⟩ := List.mem_iff_getElem?.mp member
    have named : r.reachedUnits[position]? = some u.name := by
      rw [reachedUnits, List.getElem?_map, stands, Option.map_some]
    rw [Index.unit?, getElem?_positions ascending named]
    simpa [index] using stands
  | none =>
    have missing : r.index.isReached name = false := by
      rw [isReached_index, isReached, unit, Option.isSome_none]
    rw [Index.isReached, Std.TreeMap.contains_eq_isSome_getElem?, Option.isSome_eq_false_iff,
      Option.isNone_iff_eq_none] at missing
    rw [Index.unit?, missing, Option.bind_none]

theorem has_index (name : Name) (use : Use) : r.index.has name use = r.has name use := by
  rw [Index.has, unit?_index ascending, has]

theorem list_index {α : Type} (view : UnitReport → List α) (name : Name) :
    r.index.list view name = ((r.unit? name).map view).getD [] := by
  rw [Index.list, unit?_index ascending]

theorem keeps_index (sorted : ∀ u ∈ r.units, Ascending.By id u.members) (m : MemberRef) :
    r.index.keeps m = r.keeps m := by
  rw [Bool.eq_iff_iff, keeps_iff, Index.keeps, Option.any_eq_true, unit?_index ascending]
  refine exists_congr fun u => and_congr_right fun unit => ?_
  rw [Ascending.isSome_position?_iff (sorted u ((unit?_eq_some_iff ascending).mp unit).1)]
  simp

theorem answers_index (sorted : ∀ u ∈ r.units, Ascending.By id u.members) :
    r.index.Answers r.units where
  unit? name u := by rw [unit?_index ascending, unit?_eq_some_iff ascending]
  present name u unit := by
    have reached : r.index.isReached name = true := by
      rw [isReached_index, isReached, ← unit?_index ascending, unit, Option.isSome_some]
    simp [reached, Index.has, Index.reads, Index.writes, Index.contracts, Index.list, unit]
  absent name unit := by
    have reached : r.index.isReached name = false := by
      rw [isReached_index, isReached, ← unit?_index ascending, unit, Option.isSome_none]
    simp [reached, Index.has, Index.reads, Index.writes, Index.contracts, Index.list, unit]
  keeps m := by rw [keeps_index ascending sorted, keeps_iff, unit?_index ascending]

end Ascending

end Report

namespace State

variable {p : Program} {config : Config} {s : State} {u : UnitSummary}

section Ascending

variable (ascending : Ascending.By MemberSummary.selector u.members)
include ascending

theorem by_liveMembers (isAbstract : Bool) : Ascending.By id (s.liveMembers u isAbstract) := by
  have entries : u.members.zipIdx.Pairwise fun a b =>
      compare a.1.selector b.1.selector = .lt := by
    rw [← u.members.zipIdx_map_fst 0] at ascending
    exact List.pairwise_map.mp ascending
  exact List.pairwise_map.mpr (entries.sublist List.filter_sublist)

theorem disjoint_liveMembers : (s.liveMembers u false).Disjoint (s.liveMembers u true) := by
  intro selector body contract
  obtain ⟨i, m, stands, named, concrete, _⟩ := mem_liveMembers_iff.mp body
  obtain ⟨j, other, again, same, isAbstract, _⟩ := mem_liveMembers_iff.mp contract
  obtain rfl := Ascending.eq_of_key_eq ascending (List.mem_of_getElem? stands)
    (List.mem_of_getElem? again) (named.trans same.symm)
  rw [concrete] at isAbstract
  cases isAbstract

theorem mirrors_unitReport (tidy : s.Tidy) : (s.unitReport u).Mirrors u s where
  name := rfl
  kind := rfl
  has use := by simp [UnitReport.has, unitReport, Use.mem_all]
  members := by_liveMembers ascending false
  contracts := by_liveMembers ascending true
  disjoint := disjoint_liveMembers ascending
  mem_members _ := mem_liveMembers_iff
  mem_contracts _ := mem_liveMembers_iff
  reads := ⟨rfl, tidy.fields .read u.name⟩
  writes := ⟨rfl, tidy.fields .write u.name⟩

end Ascending

section Ordered

variable (ordered : p.Ordered)
include ordered

theorem mirrors_of_mem_units (tidy : s.Tidy) {unit : UnitReport}
    (member : unit ∈ (s.finish p).units) :
    ∃ u, p.find? unit.name = some u ∧ unit.Mirrors u s := by
  obtain ⟨u, declared, _, rfl⟩ := mem_units_finish.mp member
  exact ⟨u, p.find?_eq_some_iff.mpr ⟨declared, rfl⟩, mirrors_unitReport (ordered u declared) tidy⟩

theorem sorted_members_finish (tidy : s.Tidy) :
    ∀ unit ∈ (s.finish p).units, Ascending.By id unit.members := by
  intro unit member
  obtain ⟨u, _, mirrors⟩ := mirrors_of_mem_units ordered tidy member
  exact mirrors.members

/-- What is known of a unit is not lost if the unit is left out: then nothing is known. -/
theorem agrees_index_finish_run :
    ((run p config.toOptions config.roots).finish p).index.Agrees p
      (run p config.toOptions config.roots) := by
  have complete : (run p config.toOptions config.roots).Complete p config := complete_run
  have tidy : (run p config.toOptions config.roots).Tidy := tidy_run config.roots
  have sorted := sorted_members_finish ordered tidy
  exact {
    isReached := fun name => (Report.isReached_index name).trans (isReached_finish_run name)
    has := by
      intro name use
      rw [Report.has_index ascending_units_finish, Bool.eq_iff_iff]
      have shown : (p.analyze config).Shows (.use name use) ↔ _ := Program.shows_analyze_iff ordered
      exact shown.trans knows_run_iff.symm
    reads := fun name => (Report.list_index ascending_units_finish _ name).trans
      (fields_finish_run .read (fun _ => rfl) name)
    writes := fun name => (Report.list_index ascending_units_finish _ name).trans
      (fields_finish_run .write (fun _ => rfl) name)
    keeps := by
      intro m
      rw [Report.keeps_index ascending_units_finish sorted]
      have shown : (p.analyze config).Shows (.body m) ↔ _ := Program.shows_analyze_iff ordered
      refine shown.trans (exists_congr fun slot => and_congr_right fun _ => ?_)
      rw [← knows_run_iff, complete.reached_iff_seen]
      exact and_comm
    contracts := by
      intro m
      rw [Index.contracts, Report.list_index ascending_units_finish]
      have shown : (p.analyze config).Shows (.contract m) ↔ _ := Program.shows_analyze_iff ordered
      refine shown.trans (exists_congr fun slot => and_congr_right fun _ => ?_)
      rw [← knows_run_iff, complete.reached_iff_seen]
      exact and_comm }

end Ordered

theorem mirrors_finish_run {summaries : List UnitSummary}
    (ordered : (Program.ofUnits summaries).Ordered) :
    ((run (.ofUnits summaries) config.toOptions config.roots).finish (.ofUnits summaries)).Mirrors
      summaries (run (.ofUnits summaries) config.toOptions config.roots) where
  ascending := ascending_units_finish
  reached name := by rw [← Report.isReached_iff, isReached_finish_run]
  units unit member := by
    rw [← Program.find?_ofUnits]
    exact mirrors_of_mem_units ordered (tidy_run config.roots) member
  hostGlobals := ⟨rfl, (tidy_run config.roots).hostGlobals⟩

end State

/-- Two units have the name of the first class. Its exported method calls an abstract one, and a
method that nobody calls stands between them. The other class is not used. -/
def repeated : List UnitSummary :=
  [{ name := ⟨20⟩, kind := .plainClass, isExported := true,
     members := [{ selector := .method ⟨30⟩, isExported := true,
                   dependencies := { calls := [(⟨20⟩, [⟨32⟩])] } },
                 { selector := .method ⟨31⟩ },
                 { selector := .method ⟨32⟩, isAbstract := true }] },
   { name := ⟨21⟩, kind := .plainClass },
   { name := ⟨20⟩, kind := .plainClass, members := [{ selector := .method ⟨33⟩ }] }]

/-- At the end of the analysis the report and its index give what the state holds. -/
theorem analyze_mirrors_run {summaries : List UnitSummary}
    (ascending : ∀ u ∈ summaries, Ascending.By MemberSummary.selector u.members) (config : Config) :
    let p := Program.ofUnits summaries
    let s := State.run p config.toOptions config.roots
    let r := analyze summaries config
    r.Mirrors summaries s ∧ r.index.Answers r.units ∧ r.index.Agrees p s := by
  intro p s r
  have ordered : p.Ordered := Program.ordered_ofUnits ascending
  have mirrors : r.Mirrors summaries s := State.mirrors_finish_run ordered
  refine ⟨mirrors, ?_, State.agrees_index_finish_run ordered⟩
  exact Report.answers_index mirrors.ascending
    (State.sorted_members_finish ordered (State.tidy_run config.roots))

theorem analyze_mirrors_repeated :
    (analyze repeated {}).Mirrors repeated (State.run (.ofUnits repeated) {} ∅) ∧
      (analyze repeated {}).reachedUnits = [⟨20⟩] ∧
      (analyze repeated {}).index.keeps ⟨⟨20⟩, .method ⟨30⟩⟩ = true ∧
      (analyze repeated {}).index.keeps ⟨⟨20⟩, .method ⟨31⟩⟩ = false ∧
      (analyze repeated {}).index.contracts ⟨20⟩ = [.method ⟨32⟩] ∧
      (analyze repeated {}).index.keeps ⟨⟨20⟩, .method ⟨33⟩⟩ = false := by
  have ascending : ∀ u ∈ repeated, Ascending.By MemberSummary.selector u.members := by
    unfold Ascending.By
    decide
  obtain ⟨mirrors, _, agrees⟩ := analyze_mirrors_run ascending {}
  refine ⟨mirrors, by decide, ?_, ?_, ?_, ?_⟩
  · exact (agrees.keeps _).mpr (by decide)
  · exact Bool.eq_false_iff.mpr (mt (agrees.keeps _).mp (by decide))
  · decide
  · exact Bool.eq_false_iff.mpr (mt (agrees.keeps _).mp (by decide))

end TreeShake
