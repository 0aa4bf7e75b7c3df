import TreeShake.Proofs.Comparison
import TreeShake.Proofs.DefectExactness

set_option autoImplicit false

/-!
The analysis is idempotent. What a report shows to be live can be handed to a second analysis as
further roots: such a root asks for nothing that the rules do not derive without it, and it cannot be
at fault. So the second report keeps what the first one keeps, and it lists the same defects. Only
their referrers may differ, because the second analysis meets the roots first.
-/

namespace TreeShake

namespace Program

variable {p : Program} {c d : Config}

theorem contains_of_asked {root : Root} (asked : ∀ fact ∈ root.asks, p.LiveBy c fact) :
    p.contains root.owner = true := by
  cases root with
  | unit name | module name | instantiate name _ =>
    exact Live.declaredFact (asked _ List.mem_cons_self)
  | member m =>
    obtain ⟨slot, found, _⟩ := asked _ List.mem_cons_self
    exact contains_of_slot? found

theorem declares_of_liveBy {m : MemberRef} (live : p.LiveBy c (.body m)) : p.declares m = true := by
  obtain ⟨slot, found, _⟩ := live
  exact Option.isSome_of_eq_some found

section Grounded

variable (grounded : ∀ root ∈ d.roots.toList,
  root ∈ c.roots.toList ∨ ∀ fact ∈ root.asks, p.LiveBy c fact)
include grounded

/-- The same is live with roots that ask for nothing new. -/
theorem live_iff_of_grounded (below : p.Below c p d)
    (contracts : d.keepContracts = true → c.keepContracts = true) (fact : Fact Slot) :
    p.Live d fact ↔ p.Live c fact :=
  ⟨(covered_of_roots contracts grounded).live, below.live⟩

/-- A root that asks for what is live shows no defect. -/
theorem Defective.of_grounded {defect : Defect} (defective : p.Defective d (p.Live c) defect) :
    p.Defective c (p.Live c) defect := by
  cases defect with
  | missingUnit name =>
    obtain ⟨missing, rfl | ⟨root, member, rfl⟩ | user | code⟩ := defective
    · exact ⟨missing, .inl rfl⟩
    · rcases grounded root member with member | asked
      · exact ⟨missing, .inr (.inl ⟨root, member, rfl⟩)⟩
      · exact absurd (missing.symm.trans (contains_of_asked asked)) nofun
    · exact ⟨missing, .inr (.inr (.inl user))⟩
    · exact ⟨missing, .inr (.inr (.inr code))⟩
  | notInstantiable cls =>
    obtain ⟨interface, ⟨ctor, member⟩ | follows⟩ := defective
    · rcases grounded _ member with member | asked
      · exact ⟨interface, .inl ⟨ctor, member⟩⟩
      · obtain ⟨kind, found, allowed⟩ := Live.instantiable (asked _ List.mem_cons_self)
        obtain rfl := Option.some.inj (interface.symm.trans found)
        cases allowed
    · exact ⟨interface, .inr follows⟩
  | notAModule name =>
    obtain ⟨⟨kind, found, other⟩, member | follows⟩ := defective
    · rcases grounded _ member with member | asked
      · exact ⟨⟨kind, found, other⟩, .inl member⟩
      · obtain ⟨_, again, _, same, module⟩ := Live.loads (asked _ List.mem_cons_self)
        obtain rfl := Option.some.inj (found.symm.trans same)
        exact absurd (other.symm.trans module) nofun
    · exact ⟨⟨kind, found, other⟩, .inr follows⟩
  | missingMember m =>
    obtain ⟨present, lacks | ⟨lacks, calls⟩⟩ := defective
    · exact ⟨present, .inl lacks⟩
    · refine ⟨present, .inr ⟨lacks, ?_⟩⟩
      rcases calls with member | ⟨ctor, member, same⟩ | follows | loaded
      · rcases grounded _ member with member | asked
        · exact .inl member
        · have declared := declares_of_liveBy (asked _ List.mem_cons_self)
          exact absurd (lacks.1.symm.trans declared) nofun
      · rcases grounded _ member with member | asked
        · exact .inr (.inl ⟨ctor, member, same⟩)
        · have declared := declares_of_liveBy (asked _ (List.mem_cons_of_mem _ List.mem_cons_self))
          rw [← same] at declared
          exact absurd (lacks.1.symm.trans declared) nofun
      · exact .inr (.inr (.inl follows))
      · exact .inr (.inr (.inr loaded))

end Grounded

end Program

/-- Roots that ask only for what a report shows change neither what is kept nor which defects are
listed. -/
theorem analyze_idempotent {summaries : List UnitSummary}
    (ascending : ∀ u ∈ summaries, Ascending.By MemberSummary.selector u.members) {config : Config}
    {roots : RootSet} (kept : config.roots.toList ⊆ roots.toList)
    (grounded : ∀ root ∈ roots.toList, root ∈ config.roots.toList ∨
      ∀ fact ∈ root.asks, (analyze summaries config).Shows fact) :
    (analyze summaries { config with roots := roots }).units = (analyze summaries config).units ∧
      (analyze summaries { config with roots := roots }).hostGlobals =
        (analyze summaries config).hostGlobals ∧
      ∀ defect, Diagnostic.Listed (analyze summaries { config with roots := roots }).diagnostics defect ↔
        Diagnostic.Listed (analyze summaries config).diagnostics defect := by
  have ordered := Program.ordered_ofUnits ascending
  have grounded : ∀ root ∈ roots.toList, root ∈ config.roots.toList ∨
      ∀ fact ∈ root.asks, (Program.ofUnits summaries).LiveBy config fact := by
    intro root member
    refine (grounded root member).imp_right fun asked fact named => ?_
    exact (Program.shows_analyze_iff ordered).mp (asked fact named)
  have below : (Program.ofUnits summaries).Below config (Program.ofUnits summaries)
      { config with roots := roots } := Program.below_of_roots id id kept
  have same := Program.live_iff_of_grounded grounded below id
  have known : (Program.ofUnits summaries).Live { config with roots := roots } =
      (Program.ofUnits summaries).Live config := funext fun fact => propext (same fact)
  refine ⟨State.units_run_eq ⟨rfl, rfl⟩ same, State.hostGlobals_run_eq fun _ => same _, ?_⟩
  intro defect
  constructor
  · intro listed
    obtain ⟨reporting, referrer, refers⟩ := State.listed_run_iff.mp listed
    have defective := refers.defective
    rw [known] at defective
    exact State.listed_run_iff.mpr ⟨reporting, (defective.of_grounded grounded).refers⟩
  · exact State.listed_run_mono below

/-- A module that the host can load makes an instance of a class. The superclass of that one and the
root of the hierarchy are missing. -/
def modular : List UnitSummary :=
  [{ name := ⟨20⟩, kind := .moduleClass, isExported := true,
     members := [{ selector := .method ⟨30⟩, isExported := true,
                   dependencies := { exactCalls := [(⟨21⟩, [.ctor ⟨31⟩])],
                                     instantiated := [⟨21⟩], hostGlobals := [⟨50⟩] } },
                 { selector := .ctor Name.defaultConstructor }] },
   { name := ⟨21⟩, kind := .plainClass, superclass := some ⟨40⟩,
     members := [{ selector := .method ⟨32⟩ }, { selector := .ctor ⟨31⟩ }] }]

-- One root of each form.
theorem analyze_modular_again :
    (analyze modular { roots := .ofList [.unit ⟨20⟩, .module ⟨20⟩, .member ⟨⟨20⟩, .method ⟨30⟩⟩,
        .instantiate ⟨21⟩ ⟨31⟩] }).units = (analyze modular {}).units ∧
      (analyze modular {}).keeps ⟨⟨21⟩, .ctor ⟨31⟩⟩ = true ∧
      (analyze modular {}).keeps ⟨⟨21⟩, .method ⟨32⟩⟩ = false := by
  have ascending : ∀ u ∈ modular, Ascending.By MemberSummary.selector u.members := by
    unfold Ascending.By
    decide
  have grounded : ∀ root ∈ (RootSet.ofList [.unit ⟨20⟩, .module ⟨20⟩, .member ⟨⟨20⟩, .method ⟨30⟩⟩,
      .instantiate ⟨21⟩ ⟨31⟩]).toList, root ∈ (∅ : RootSet).toList ∨
        ∀ fact ∈ root.asks, (analyze modular {}).Shows fact := by decide +kernel
  have again := @analyze_idempotent modular ascending {} _ (List.nil_subset _) grounded
  exact ⟨again.1, by decide, by decide⟩

end TreeShake
