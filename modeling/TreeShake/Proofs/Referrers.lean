import TreeShake.Proofs.Arrival
import TreeShake.Proofs.DefectExactness

set_option autoImplicit false

/-!
How diagnostics are grouped, and who is named in them. After any sequence of reports there is one
entry for each defect, in the order of the first reports, with the referrers of that defect in the
same order. The analysis names nobody who is not live: a referrer is a body that runs, a reached
unit or the set of roots. The referrers of a missing unit are exactly those who name it.
-/

namespace TreeShake

namespace Diagnostic

/-- A defect and the place where it was met. -/
abbrev Sighting := Defect × Referrer

/-- Where a defect was met, in the order of the first times. -/
def places (sightings : List Sighting) (defect : Defect) : List Referrer :=
  ((sightings.filter fun seen => seen.1 = defect).map Prod.snd).eraseDups

/-- One entry for each defect, in the order of the first times. -/
def grouped (sightings : List Sighting) : List Diagnostic :=
  (sightings.map Prod.fst).eraseDups.map fun defect => ⟨defect, places sightings defect⟩

theorem mem_places {sightings : List Sighting} {defect : Defect} {referrer : Referrer} :
    referrer ∈ places sightings defect ↔ (defect, referrer) ∈ sightings := by
  simp [places]

theorem places_concat_of_ne {sightings : List Sighting} {defect other : Defect}
    {referrer : Referrer} (different : other ≠ defect) :
    places (sightings ++ [(defect, referrer)]) other = places sightings other := by
  simp [places, Ne.symm different]

/-- A referrer that is new for the defect goes to the end. -/
theorem refer_places (sightings : List Sighting) (defect : Defect) (referrer : Referrer) :
    refer ⟨defect, places sightings defect⟩ referrer =
      ⟨defect, places (sightings ++ [(defect, referrer)]) defect⟩ := by
  have later : places (sightings ++ [(defect, referrer)]) defect =
      if referrer ∈ places sightings defect then places sightings defect
      else places sightings defect ++ [referrer] := by
    have here : [(defect, referrer)].filter (fun seen => seen.1 = defect) =
        [(defect, referrer)] := by
      simp
    simp only [places, List.filter_append, here, List.map_append, List.map_singleton,
      Arrival.eraseDups_concat, List.mem_eraseDups]
  rw [later]
  unfold refer
  by_cases known : referrer ∈ places sightings defect
  · rw [if_pos known, if_pos known]
  · rw [if_neg known, if_neg known]

/-- An entry for each key, of which only the entry with the recorded defect changes. -/
theorem record_map {entry : Defect → Diagnostic} (keyed : ∀ defect, (entry defect).defect = defect)
    {defects : List Defect} (distinct : defects.Nodup) {defect : Defect} (known : defect ∈ defects)
    (referrer : Referrer) :
    record defect referrer (defects.map entry) =
      defects.map fun other =>
        if other = defect then (entry other).refer referrer else entry other := by
  induction defects with
  | nil => cases known
  | cons first rest ih =>
    obtain ⟨unlisted, distinct⟩ := List.nodup_cons.mp distinct
    rw [List.map_cons, record, keyed, List.map_cons]
    by_cases same : first = defect
    · rw [if_pos same, if_pos same]
      congr 1
      apply List.map_congr_left
      intro other member
      have different : other ≠ defect := fun equal => unlisted (same ▸ equal ▸ member)
      rw [if_neg different]
    · have later := (List.mem_cons.mp known).resolve_left (Ne.symm same)
      rw [if_neg same, if_neg same, ih distinct later]

theorem map_defect_grouped (sightings : List Sighting) :
    (grouped sightings).map Diagnostic.defect = (sightings.map Prod.fst).eraseDups := by
  simp [grouped, Function.comp_def]

/-- A step keeps the grouping. -/
theorem record_grouped (sightings : List Sighting) (defect : Defect) (referrer : Referrer) :
    record defect referrer (grouped sightings) = grouped (sightings ++ [(defect, referrer)]) := by
  have names : (sightings ++ [(defect, referrer)]).map Prod.fst =
      sightings.map Prod.fst ++ [defect] :=
    List.map_append
  -- A known defect changes its own entry at most, and a new one makes the last entry.
  by_cases known : defect ∈ sightings.map Prod.fst
  · have listed := List.mem_eraseDups.mpr known
    rw [grouped, record_map (fun _ => rfl) (Arrival.nodup_eraseDups _) listed, grouped, names,
      Arrival.eraseDups_concat, if_pos known]
    apply List.map_congr_left
    intro other _
    by_cases same : other = defect
    · rw [if_pos same, same, refer_places]
    · rw [if_neg same, places_concat_of_ne same]
  · have fresh : defect ∉ (grouped sightings).map Diagnostic.defect := by
      rwa [map_defect_grouped, List.mem_eraseDups]
    have nowhere : places sightings defect = [] := by
      apply List.eq_nil_iff_forall_not_mem.mpr
      intro place member
      exact known (List.mem_map_of_mem (mem_places.mp member))
    have once : places (sightings ++ [(defect, referrer)]) defect = [referrer] := by
      have entry := refer_places sightings defect referrer
      rw [nowhere] at entry
      exact (congrArg Diagnostic.referrers entry).symm
    rw [record_eq_append fresh, grouped, grouped, names, Arrival.eraseDups_concat, if_neg known,
      List.map_append, List.map_singleton, once]
    congr 1
    apply List.map_congr_left
    intro other member
    have different : other ≠ defect := fun same => known (same ▸ List.mem_eraseDups.mp member)
    rw [places_concat_of_ne different]

theorem distinct_grouped (sightings : List Sighting) :
    ((grouped sightings).map Diagnostic.defect).Nodup := by
  rw [map_defect_grouped]
  exact Arrival.nodup_eraseDups _

theorem referrers_of_mem_grouped {sightings : List Sighting} {d : Diagnostic}
    (member : d ∈ grouped sightings) : d.referrers ≠ [] ∧ d.referrers.Nodup := by
  obtain ⟨defect, listed, same⟩ := List.mem_map.mp member
  obtain ⟨seen, sighted, named⟩ := List.mem_map.mp (List.mem_eraseDups.mp listed)
  have referrer : seen.2 ∈ places sightings defect := mem_places.mpr (named ▸ sighted)
  rw [← same]
  exact ⟨List.ne_nil_of_mem referrer, Arrival.nodup_eraseDups _⟩

/-- Each defect has one entry, so who is mentioned with it stands there. -/
theorem mem_referrers_iff {diagnostics : List Diagnostic}
    (distinct : (diagnostics.map Diagnostic.defect).Nodup) {d : Diagnostic}
    (member : d ∈ diagnostics) {referrer : Referrer} :
    referrer ∈ d.referrers ↔ Mentioned diagnostics d.defect referrer := by
  constructor
  · exact fun named => ⟨d, member, rfl, named⟩
  · rintro ⟨other, listed, same, named⟩
    rwa [← List.inj_on_of_nodup_map distinct listed member same]

end Diagnostic

namespace DiagnosticLog

open Diagnostic (Sighting grouped)

def ofSightings (sightings : List Sighting) : DiagnosticLog :=
  sightings.foldl (fun log seen => log.record seen.1 seen.2) ∅

theorem ofSightings_concat (sightings : List Sighting) (defect : Defect) (referrer : Referrer) :
    ofSightings (sightings ++ [(defect, referrer)]) =
      (ofSightings sightings).record defect referrer := by
  simp [ofSightings]

theorem entries_ofSightings (sightings : List Sighting) :
    (ofSightings sightings).entries = grouped sightings := by
  induction sightings using List.reverseRecOn with
  | nil => rfl
  | append_singleton sightings seen ih =>
    rw [ofSightings_concat, Diagnostic.entries_record, ih, Diagnostic.record_grouped]

end DiagnosticLog

namespace State

variable {p : Program} {o : Options} {s t : State}

/-- The diagnostics of the state come from a sequence of sightings. -/
def Collects (s : State) : Prop :=
  ∃ sightings, s.diagnostics = DiagnosticLog.ofSightings sightings

theorem Collects.of_eq (collects : s.Collects) (same : t.diagnostics = s.diagnostics) :
    t.Collects := by
  obtain ⟨sightings, collected⟩ := collects
  exact ⟨sightings, same.trans collected⟩

theorem Collects.report (collects : s.Collects) (defect : Defect) (referrer : Referrer) :
    (s.report o defect referrer).Collects := by
  obtain ⟨sightings, collected⟩ := collects
  unfold State.report
  cases o.missing with
  | report =>
    refine ⟨sightings ++ [(defect, referrer)], ?_⟩
    rw [DiagnosticLog.ofSightings_concat, ← collected]
  | ignore => exact ⟨sightings, collected⟩

theorem diagnostics_enqueue (s : State) (m : Slot) :
    (s.enqueue p m).diagnostics = s.diagnostics := by
  unfold enqueue
  split
  · split <;> rfl
  · rfl

theorem Collects.evolves (collects : s.Collects) (evolves : Evolves p o s t) : t.Collects := by
  induction evolves with
  | refl => exact collects
  | tail _ change ih =>
    cases change with
    | spread spread =>
      cases spread with
      | mark | ask => exact ih.of_eq rfl
      | report defect referrer => exact ih.report defect referrer
      | enqueue m => exact ih.of_eq (diagnostics_enqueue _ m)
    | logCall | addSubclass | accessField | useGlobal => exact ih.of_eq rfl

theorem Collects.step (collects : s.Collects) : (s.step p o).Collects := by
  rcases s.step_cases with ⟨_, same⟩ | ⟨m, rest, _, same⟩
  · rwa [same]
  · rw [same]
    have popped : (s.pop m rest).Collects := collects.of_eq rfl
    exact popped.evolves (evolves_expand ..)

theorem collects_run (roots : RootSet) : (run p o roots).Collects :=
  run_induction roots ⟨[], rfl⟩ (fun _ _ collects => collects.evolves (evolves_plant ..))
    (fun _ collects => collects.step)

end State

namespace Program

section Referrers

variable (p : Program) (config : Config) (known : Fact Slot → Prop)

/-- Who names a unit: the roots, a reached unit that has it as a parent or as the class of a field,
or a body that runs. The root of the hierarchy counts as named by the roots. -/
def NamesFrom (name : Name) : Referrer → Prop
  | .roots => name = Name.object ∨ ∃ root ∈ config.roots.toList, root.owner = name
  | .unit user => known (.use user .reached) ∧ name ∈ p.parents user ++ p.fieldClasses user
  | .member m =>
    ∃ slot, p.ref slot = m ∧ known (.body slot) ∧ (p.dependencies slot).Names name

/-- The referrers of a diagnostic are live, and those of a missing unit are exactly those who name
it. -/
structure Genuine (d : Diagnostic) : Prop where
  members : ∀ m, .member m ∈ d.referrers → ∃ slot, p.ref slot = m ∧ known (.body slot)
  units : ∀ name, .unit name ∈ d.referrers → known (.use name .reached)
  missing : ∀ name, d.defect = .missingUnit name → p.contains name = false ∧
    ∀ referrer, referrer ∈ d.referrers ↔ p.NamesFrom config known name referrer

end Referrers

variable {p : Program} {config : Config} {known : Fact Slot → Prop} {defect : Defect}

theorem refers_missingUnit_iff {name : Name} {referrer : Referrer} :
    p.Refers config known (.missingUnit name) referrer ↔
      p.contains name = false ∧ p.NamesFrom config known name referrer := by
  constructor
  · intro refers
    cases refers with
    | objectMissing missing => exact ⟨missing, .inl rfl⟩
    | rootMissing member missing => exact ⟨missing, .inr ⟨_, member, rfl⟩⟩
    | partMissing reached member missing => exact ⟨missing, reached, member⟩
    | codeMissing body member named missing =>
      exact ⟨missing, _, rfl, body, Dependencies.names_iff.mpr ⟨_, member, named⟩⟩
  · rintro ⟨missing, names⟩
    cases referrer with
    | roots =>
      rcases names with rfl | ⟨root, member, rfl⟩
      · exact .objectMissing missing
      · exact .rootMissing member missing
    | unit user => exact .partMissing names.1 names.2 missing
    | member m =>
      obtain ⟨slot, rfl, body, names⟩ := names
      obtain ⟨demand, member, named⟩ := Dependencies.names_iff.mp names
      exact .codeMissing body member named missing

theorem Refers.body {m : MemberRef} (refers : p.Refers config known defect (.member m)) :
    ∃ slot, p.ref slot = m ∧ known (.body slot) := by
  cases refers with
  | codeMissing body | notModule body | notInstantiable body | exactCall body | call body =>
    exact ⟨_, rfl, body⟩
  | moduleConstructor loads =>
    cases loads with
    | code body => exact ⟨_, rfl, body⟩

/-- A unit refers to a missing part of itself, or to its own constructor when the host loads it. -/
theorem Refers.reached (closed : p.Closed config known) {name : Name}
    (refers : p.Refers config known defect (.unit name)) : known (.use name .reached) := by
  cases refers with
  | partMissing reached => exact reached
  | moduleConstructor loads =>
    cases loads with
    | exposed found exported => exact closed _ (.exported found exported)

/-- The diagnostics of a run have one entry for each defect. -/
theorem distinct_run : ((State.run p config.toOptions config.roots).diagnostics.entries.map
    Diagnostic.defect).Nodup := by
  obtain ⟨sightings, collected⟩ := State.collects_run (p := p) (o := config.toOptions) config.roots
  rw [collected, DiagnosticLog.entries_ofSightings]
  exact Diagnostic.distinct_grouped sightings

theorem refers_of_mem_run {d : Diagnostic}
    (member : d ∈ (State.run p config.toOptions config.roots).diagnostics.entries)
    {referrer : Referrer} (named : referrer ∈ d.referrers) :
    p.Refers config (p.Live config) d.defect referrer := by
  have justified : State.Justified p config (p.Live config) _ :=
    State.justified_run fun _ => .derived
  have mentioned := (Diagnostic.mem_referrers_iff distinct_run member).mp named
  exact (justified.defects d.defect referrer mentioned).2

/-- All who name a missing unit are mentioned with it, and nobody else. -/
theorem genuine_of_mem_run (reporting : config.missing = .report) {d : Diagnostic}
    (member : d ∈ (State.run p config.toOptions config.roots).diagnostics.entries) :
    p.Genuine config (p.Live config) d where
  members m named := (refers_of_mem_run member named).body
  units name named := (refers_of_mem_run member named).reached fun _ => .derived
  missing name same := by
    have ofUnit : ∀ m, Defect.missingUnit name ≠ .missingMember m := nofun
    have absent : p.contains name = false := by
      obtain ⟨_, referrer, refers⟩ := State.listed_run_iff.mp ⟨d, member, same⟩
      exact (refers_missingUnit_iff.mp refers).1
    refine ⟨absent, fun referrer => ?_⟩
    rw [Diagnostic.mem_referrers_iff distinct_run member, same, State.mentioned_run_iff ofUnit,
      and_iff_right reporting, refers_missingUnit_iff, and_iff_right absent]

end Program

/-- Reports of defects are grouped by defect and by referrer, both in the order of the first
reports, and in the diagnostics of the analysis the referrers are genuine. -/
theorem diagnostics_grouped :
    (∀ sightings, (DiagnosticLog.ofSightings sightings).entries = Diagnostic.grouped sightings ∧
      ((DiagnosticLog.ofSightings sightings).entries.map Diagnostic.defect).Nodup ∧
      ∀ d ∈ (DiagnosticLog.ofSightings sightings).entries, d.referrers ≠ [] ∧ d.referrers.Nodup) ∧
    ∀ summaries : List UnitSummary,
      (∀ u ∈ summaries, Ascending.By MemberSummary.selector u.members) →
      ∀ config : Config, config.missing = .report →
        let p := Program.ofUnits summaries
        let r := analyze summaries config
        (∃ sightings, r.diagnostics = (DiagnosticLog.ofSightings sightings).entries) ∧
        (∀ d ∈ r.diagnostics, p.Genuine config (p.Shown r) d) ∧
        ∀ name referrer, p.contains name = false → p.NamesFrom config (p.Shown r) name referrer →
          Diagnostic.Listed r.diagnostics (.missingUnit name) := by
  constructor
  · intro sightings
    rw [DiagnosticLog.entries_ofSightings]
    exact ⟨rfl, Diagnostic.distinct_grouped sightings, fun _ => Diagnostic.referrers_of_mem_grouped⟩
  · intro summaries ascending config reporting p r
    have same : p.Shown r = p.Live config :=
      Program.shown_analyze (Program.ordered_ofUnits ascending)
    obtain ⟨sightings, collected⟩ := @State.collects_run p config.toOptions config.roots
    rw [same]
    refine ⟨⟨sightings, congrArg DiagnosticLog.entries collected⟩,
      fun d => Program.genuine_of_mem_run reporting, ?_⟩
    intro name referrer absent names
    have refers := Program.refers_missingUnit_iff.mpr ⟨absent, names⟩
    exact State.listed_run_iff.mpr ⟨reporting, referrer, refers⟩

/-- The superclass of an exported class is missing. It is also a root, and a method of the class has
an empty group of reads for it. The method calls another one on an interface, and an instance
without it is made later in a different method. -/
def dangling : List UnitSummary :=
  [{ name := ⟨20⟩, kind := .plainClass, superclass := some ⟨40⟩, isExported := true,
     members := [{ selector := .method ⟨30⟩, isExported := true,
                   dependencies := { reads := [(⟨40⟩, [])], calls := [(⟨21⟩, [⟨31⟩])] } },
                 { selector := .method ⟨32⟩, isExported := true,
                   dependencies := { instantiated := [⟨22⟩] } }] },
   { name := ⟨21⟩, kind := .interface },
   { name := ⟨22⟩, kind := .plainClass, interfaces := [⟨21⟩] }]

theorem diagnostics_dangling :
    let config : Config := { roots := .ofList [.unit ⟨40⟩] }
    (analyze dangling config).diagnostics =
      [⟨.missingUnit Name.object, [.roots]⟩,
       ⟨.missingUnit ⟨40⟩, [.unit ⟨20⟩, .roots, .member ⟨⟨20⟩, .method ⟨30⟩⟩]⟩,
       ⟨.missingMember ⟨⟨22⟩, .method ⟨31⟩⟩, [.member ⟨⟨20⟩, .method ⟨30⟩⟩]⟩] ∧
      ∀ d ∈ (analyze dangling config).diagnostics,
        (Program.ofUnits dangling).Genuine config
          ((Program.ofUnits dangling).Shown (analyze dangling config)) d := by
  intro config
  have ascending : ∀ u ∈ dangling, Ascending.By MemberSummary.selector u.members := by decide
  exact ⟨by decide, (diagnostics_grouped.2 dangling ascending config rfl).2.1⟩

end TreeShake
