import TreeShake.Proofs.Comparison

set_option autoImplicit false

/-!
The analysis is confluent. The order of the units and of the roots decides which member is expanded
first, which call or instance is seen first, and in which order the classes below a unit are listed.
None of this can be seen in the report, because the facts of the report are the live ones, and its
lists are ascending.
-/

namespace TreeShake

namespace State

variable {p q : Program} {c d : Config} (agree : p.Agree q) (configs : Config.Agree c d)
include agree configs

theorem units_run_congr :
    ((run p c.toOptions c.roots).finish p).units =
      ((run q d.toOptions d.roots).finish q).units :=
  units_run_eq agree fun _ => agree.live_iff configs

theorem hostGlobals_run_congr :
    (run p c.toOptions c.roots).hostGlobals = (run q d.toOptions d.roots).hostGlobals :=
  hostGlobals_run_eq fun _ => agree.live_iff configs

theorem listed_run_congr (defect : Defect) :
    Diagnostic.Listed (run p c.toOptions c.roots).diagnostics.entries defect ↔
      Diagnostic.Listed (run q d.toOptions d.roots).diagnostics.entries defect := by
  rw [listed_run_iff, listed_run_iff, configs.options]
  simp only [agree.refers_iff configs]

theorem mentioned_run_congr {defect : Defect} (ofUnit : ∀ m, defect ≠ .missingMember m)
    (referrer : Referrer) :
    Diagnostic.Mentioned (run p c.toOptions c.roots).diagnostics.entries defect referrer ↔
      Diagnostic.Mentioned (run q d.toOptions d.roots).diagnostics.entries defect referrer := by
  rw [mentioned_run_iff ofUnit, mentioned_run_iff ofUnit, configs.options, agree.refers_iff configs]

end State

/-- Both reports keep the same and list the same defects. The defects of units have the same
referrers. -/
structure Report.Equivalent (r t : Report) : Prop where
  units : r.units = t.units
  hostGlobals : r.hostGlobals = t.hostGlobals
  defects : ∀ defect, Diagnostic.Listed r.diagnostics defect ↔ Diagnostic.Listed t.diagnostics defect
  referrers : ∀ defect referrer, (∀ m, defect ≠ .missingMember m) →
    (Diagnostic.Mentioned r.diagnostics defect referrer ↔
      Diagnostic.Mentioned t.diagnostics defect referrer)

/-- The order of the units, and the order and repetition of the roots, have no influence. -/
theorem analyze_perm {first second : List UnitSummary} {roots others : List Root}
    (distinct : (first.map UnitSummary.name).Nodup) (permuted : first.Perm second)
    (same : ∀ root, root ∈ roots ↔ root ∈ others) (o : Options) :
    (analyze first { toOptions := o, roots := .ofList roots }).Equivalent
      (analyze second { toOptions := o, roots := .ofList others }) := by
  have agree := Program.agree_ofUnits distinct permuted
  have configs : Config.Agree { toOptions := o, roots := .ofList roots }
      { toOptions := o, roots := .ofList others } := by
    refine ⟨rfl, fun root => ?_⟩
    rw [RootSet.mem_ofList, RootSet.mem_ofList, same]
  exact
    { units := State.units_run_congr agree configs
      hostGlobals := State.hostGlobals_run_congr agree configs
      defects := State.listed_run_congr agree configs
      referrers := fun _ referrer ofUnit => State.mentioned_run_congr agree configs ofUnit referrer }

/-- The classes of `reciprocal`, which are below each other, and a class that has two exported
members of one name. -/
def reciprocalAndTwins : List UnitSummary :=
  reciprocal ++
    [{ name := ⟨22⟩, kind := .plainClass, isExported := true,
       members := [{ selector := .static ⟨40⟩, isExported := true,
                     dependencies := { hostGlobals := [⟨61⟩] } },
                   { selector := .static ⟨40⟩, isExported := true,
                     dependencies := { hostGlobals := [⟨62⟩] } }] }]

-- One root names a missing unit.
theorem analyze_reciprocal_reverse :
    (analyze reciprocalAndTwins { roots := .ofList [.module ⟨20⟩, .unit ⟨40⟩] }).Equivalent
        (analyze reciprocalAndTwins.reverse
          { roots := .ofList [.unit ⟨40⟩, .module ⟨20⟩, .unit ⟨40⟩] }) ∧
      (analyze reciprocalAndTwins {}).hostGlobals = [⟨61⟩, ⟨62⟩] ∧
      Diagnostic.Listed
        (analyze reciprocalAndTwins { roots := .ofList [.module ⟨20⟩, .unit ⟨40⟩] }).diagnostics
        (.missingUnit ⟨40⟩) := by
  refine ⟨?_, by decide, ?_⟩
  · apply analyze_perm
    · decide
    · exact reciprocalAndTwins.reverse_perm.symm
    · simp [or_comm]
  · unfold Diagnostic.Listed
    decide

end TreeShake
