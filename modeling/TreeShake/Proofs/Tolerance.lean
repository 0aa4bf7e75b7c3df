import TreeShake.Proofs.Comparison

set_option autoImplicit false

/-!
A tolerant analysis finds the same. Where a unit or a member is missing, or a unit cannot be loaded or
instantiated, nothing follows, whether this is reported or not. The rules of liveness do not ask how
missing symbols are treated, so the reports of both treatments differ in their diagnostics alone.
-/

namespace TreeShake

/-- The report without its diagnostics. -/
def Report.silenced (r : Report) : Report := { r with diagnostics := [] }

namespace Program

variable {p : Program} {c d : Config}

/-- What is live does not depend on how missing symbols are treated. -/
theorem live_iff_of_sameRoots (contracts : c.keepContracts = d.keepContracts)
    (roots : c.roots = d.roots) {fact : Fact Slot} : p.Live c fact ↔ p.Live d fact := by
  have forth : p.Covered c p d :=
    covered_of_roots (contracts ▸ id) fun _ member => .inl (roots ▸ member)
  have back : p.Covered d p c :=
    covered_of_roots (contracts ▸ id) fun _ member => .inl (roots ▸ member)
  exact ⟨forth.live, back.live⟩

theorem analyze_eq_silenced (contracts : c.keepContracts = d.keepContracts)
    (roots : c.roots = d.roots) (ignoring : c.missing = .ignore) :
    p.analyze c = (p.analyze d).silenced := by
  have same : ∀ fact, p.Live c fact ↔ p.Live d fact := fun _ =>
    live_iff_of_sameRoots contracts roots
  have units : (p.analyze c).units = (p.analyze d).units := State.units_run_eq ⟨rfl, rfl⟩ same
  have globals : (p.analyze c).hostGlobals = (p.analyze d).hostGlobals :=
    State.hostGlobals_run_eq fun name => same (.global name)
  calc p.analyze c
      = ⟨(p.analyze c).units, (p.analyze c).hostGlobals, (p.analyze c).diagnostics⟩ := rfl
    _ = (p.analyze d).silenced := by rw [units, globals, diagnostics_eq_nil ignoring]; rfl

end Program

/-- To ignore what is missing is to drop the diagnostics, and nothing else. -/
theorem analyze_ignore (summaries : List UnitSummary) (keepContracts : Bool) (roots : RootSet) :
    analyze summaries { missing := .ignore, keepContracts := keepContracts, roots := roots } =
      (analyze summaries
        { missing := .report, keepContracts := keepContracts, roots := roots }).silenced :=
  Program.analyze_eq_silenced rfl rfl rfl

/-- An exported method makes an instance of an interface, loads a class as a module, and calls a
method that is not there before it calls one that is. -/
def astray : List UnitSummary :=
  [{ name := ⟨20⟩, kind := .plainClass, superclass := some ⟨40⟩, isExported := true,
     members := [{ selector := .method ⟨30⟩, isExported := true,
                   dependencies := { calls := [(⟨20⟩, [⟨31⟩, ⟨32⟩]), (⟨41⟩, [⟨31⟩])],
                                     instantiated := [⟨21⟩], modules := [⟨20⟩] } },
                 { selector := .method ⟨32⟩ }] },
   { name := ⟨21⟩, kind := .interface }]

example :
    (analyze astray {}).diagnostics.length = 6 ∧
      (analyze astray { missing := .ignore }).hasDefects = false ∧
      (analyze astray { missing := .ignore }).keeps ⟨⟨20⟩, .method ⟨32⟩⟩ = true := by decide

end TreeShake
