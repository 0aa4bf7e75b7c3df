import TreeShake.Proofs.Growth

set_option autoImplicit false

/-!
Lookups go through the lineages that a state knows. What is known is what would be computed anew, and
every addition keeps it so. Hence a lookup finds what the program itself says, and all that it
changes in the state is which lineages are known.
-/

namespace TreeShake.State

variable {p : Program} {o : Options} {s t : State}

/-- The lineages that the state knows are those of the program. -/
def Fresh (p : Program) (s : State) : Prop := Hierarchy.Fresh p.find? p.size s.lineages

theorem fresh_initial : Fresh p {} := Hierarchy.fresh_empty

theorem Change.lineages_eq (change : Change p o s t) :
    t.lineages = s.lineages ∨ ∃ name, t = (s.lineage p name).2 := by
  cases change with
  | spread spread =>
    cases spread with
    | mark | report => exact .inl rfl
    | ask name => exact .inr ⟨name, rfl⟩
    | enqueue m =>
      unfold enqueue
      split
      · split <;> exact .inl rfl
      · exact .inl rfl
  | logCall | addSubclass | accessField | useGlobal => exact .inl rfl

namespace Fresh

variable (fresh : s.Fresh p)
include fresh

theorem lineage_fst (name : Name) : (s.lineage p name).1 = p.ancestors name :=
  fresh.remember_fst name

theorem ask (name : Name) : (s.lineage p name).2.Fresh p :=
  fresh.remember_snd name

theorem evolves (evolves : Evolves p o s t) : t.Fresh p := by
  induction evolves with
  | refl => exact fresh
  | tail _ change ih =>
    rcases change.lineages_eq with same | ⟨name, rfl⟩
    · rw [Fresh, same]
      exact ih
    · exact ih.ask name

theorem asks (asks : Asks p s t) : t.Fresh p := by
  induction asks with
  | refl => exact fresh
  | tail _ asked ih =>
    obtain ⟨name, rfl⟩ := asked
    exact ih.ask name

theorem overridden_fst (owner : Name) (candidates : List Name) :
    (s.overridden p owner candidates).1 =
      candidates.any fun other => other ≠ owner && (p.ancestors other).contains owner := by
  induction candidates generalizing s with
  | nil => rfl
  | cons other rest ih =>
    rw [overridden, List.any_cons]
    by_cases same : other = owner
    · simp [same, ih fresh]
    · rw [if_neg same]
      dsimp only
      rw [fresh.lineage_fst other]
      cases above : (p.ancestors other).contains owner with
      | true => simp [same]
      | false => simp [ih (fresh.ask other)]

theorem mostSpecific_fst (candidates owners : List Name) :
    (s.mostSpecific p candidates owners).1 = owners.find? fun owner =>
      !candidates.any fun other => other ≠ owner && (p.ancestors other).contains owner := by
  induction owners generalizing s with
  | nil => rfl
  | cons owner rest ih =>
    rw [mostSpecific, List.find?_cons, fresh.overridden_fst]
    cases candidates.any fun other => other ≠ owner && (p.ancestors other).contains owner with
    | true => exact ih (fresh.asks (asks_overridden ..))
    | false => rfl

/-- A lookup finds the body that the program says. -/
theorem lookup_fst (cls method : Name) :
    (s.lookup p cls method).1 = p.target? cls method := by
  unfold lookup Program.target? Program.implementation?
  split
  · next owner inherited => rw [inherited, Option.some_or, Option.bind_some]
  · next missing =>
    dsimp only
    rw [missing, Option.none_or, (fresh.ask cls).mostSpecific_fst, fresh.lineage_fst]
    rfl

theorem lookupExact_fst (owner : Name) (selector : Selector) :
    (s.lookupExact p owner selector).1 = p.exactTarget? owner selector := by
  unfold lookupExact Program.exactTarget?
  split
  · dsimp only
    rw [fresh.lookup_fst]
  · rfl

end Fresh

end TreeShake.State
