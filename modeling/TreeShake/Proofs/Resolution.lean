import Mathlib.Data.Nat.Find
import Mathlib.Order.WellFoundedSet
import TreeShake.Proofs.Exactness

set_option autoImplicit false

/-!
Which body a call runs, said without the search. A class inherits from the nearest superclass that
has a body. Without one, it takes a body of an interface above it, but none that another candidate
inherits from. The search up the superclasses has a step for each unit: as a chain that is longer
than that passes some unit twice, the nearest body is never beyond it. On a hierarchy without cycles
there is always a candidate that no other one inherits from.
-/

namespace TreeShake

/-- The unit declares a public method with a body. -/
def UnitSummary.Implements (u : UnitSummary) (method : Name) : Prop :=
  ∃ m ∈ u.members, m.selector = ⟨.pub, method⟩ ∧ m.isAbstract = false

/-- The first entry of a list that is chosen, where two tests decide on the choice. -/
theorem find?_filter_eq_some_iff {α : Type} {first second : α → Bool} {chosen : α → Prop}
    {entries : List α} {a : α}
    (tests : ∀ b ∈ entries, (chosen b ↔ first b = true ∧ second b = true)) :
    (entries.filter first).find? second = some a ↔ ∃ before after,
      entries = before ++ a :: after ∧ chosen a ∧ ∀ b ∈ before, ¬ chosen b := by
  rw [List.find?_filter, List.find?_eq_some_iff_append]
  simp only [Bool.not_eq_true', decide_eq_true_eq, decide_eq_false_iff_not]
  constructor
  · rintro ⟨passes, before, after, rfl, fail⟩
    refine ⟨before, after, rfl, (tests a (by simp)).mpr passes, fun b member => ?_⟩
    rw [tests b (List.mem_append_left _ member)]
    exact fail b member
  · rintro ⟨before, after, rfl, passes, fail⟩
    refine ⟨(tests a (by simp)).mp passes, before, after, rfl, fun b member => ?_⟩
    rw [← tests b (List.mem_append_left _ member)]
    exact fail b member

namespace Program

variable (p : Program)

/-- The unit that is this many superclasses above the name, through units that are present. -/
inductive Ascends : Name → Nat → UnitSummary → Prop
  | self {name u} : p.find? name = some u → Ascends name 0 u
  | up {name u parent steps v} : p.find? name = some u → u.superclass = some parent →
      Ascends parent steps v → Ascends name (steps + 1) v

/-- The nearest superclass with a body, the class itself included. -/
def Nearest (cls method : Name) (u : UnitSummary) : Prop :=
  ∃ steps, p.Ascends cls steps u ∧ u.Implements method ∧
    ∀ fewer < steps, ∀ v, p.Ascends cls fewer v → ¬ v.Implements method

/-- An interface above the class that has a body. -/
def Candidate (cls method owner : Name) : Prop :=
  p.Inherits cls owner ∧ ∃ u, p.find? owner = some u ∧ u.kind = .interface ∧ u.Implements method

/-- A candidate that no other candidate inherits from. -/
def Undominated (cls method owner : Name) : Prop :=
  p.Candidate cls method owner ∧
    ∀ other, p.Candidate cls method other → other ≠ owner → ¬ p.Inherits other owner

/-- No unit is above itself. -/
def Acyclic : Prop := ∀ name, ¬ Relation.TransGen p.HasParent name name

variable {p}

theorem acyclic_of_rank {rank : Name → Nat}
    (lower : ∀ u ∈ p.units, ∀ parent ∈ u.parents, rank parent < rank u.name) : p.Acyclic := by
  have step : ∀ name parent, p.HasParent name parent → rank parent < rank name := by
    rintro name parent ⟨declared, _⟩
    obtain ⟨u, found⟩ := p.contains_iff.mp (p.contains_of_mem_parents declared)
    obtain ⟨member, named⟩ := p.find?_eq_some_iff.mp found
    rw [parents, Hierarchy.declared, found] at declared
    exact named ▸ lower u member parent declared
  have path : ∀ name above, Relation.TransGen p.HasParent name above → rank above < rank name := by
    intro name above strict
    induction strict with
    | single parent => exact step _ _ parent
    | tail _ parent ih => exact Nat.lt_trans (step _ _ parent) ih
  exact fun name cycle => Nat.lt_irrefl _ (path name name cycle)

/-! The superclasses of a unit. -/

namespace Ascends

theorem found {name : Name} {steps : Nat} {u : UnitSummary} (ascends : p.Ascends name steps u) :
    p.find? u.name = some u := by
  induction ascends with
  | self found => rwa [(p.find?_eq_some_iff.mp found).2]
  | up _ _ _ ih => exact ih

theorem unique {name : Name} {steps : Nat} {u v : UnitSummary} (one : p.Ascends name steps u)
    (other : p.Ascends name steps v) : u = v := by
  induction one with
  | self found =>
    cases other with
    | self again => exact Option.some.inj (found.symm.trans again)
  | up found above _ ih =>
    cases other with
    | up again beside rest =>
      obtain rfl := Option.some.inj (found.symm.trans again)
      obtain rfl := Option.some.inj (above.symm.trans beside)
      exact ih rest

theorem trans {name : Name} {first second : Nat} {u v : UnitSummary}
    (lower : p.Ascends name first u) (upper : p.Ascends u.name second v) :
    p.Ascends name (first + second) v := by
  induction lower with
  | self found =>
    rw [Nat.zero_add, ← (p.find?_eq_some_iff.mp found).2]
    exact upper
  | up found above _ ih =>
    rw [Nat.add_right_comm]
    exact .up found above (ih upper)

theorem split {name : Name} {first second : Nat} {v : UnitSummary}
    (ascends : p.Ascends name (first + second) v) :
    ∃ u, p.Ascends name first u ∧ p.Ascends u.name second v := by
  induction first generalizing name with
  | zero =>
    rw [Nat.zero_add] at ascends
    have present : ∃ u, p.find? name = some u := by
      cases ascends with
      | self found => exact ⟨_, found⟩
      | up found => exact ⟨_, found⟩
    obtain ⟨u, found⟩ := present
    refine ⟨u, .self found, ?_⟩
    rwa [(p.find?_eq_some_iff.mp found).2]
  | succ first ih =>
    rw [Nat.add_right_comm] at ascends
    cases ascends with
    | up found above rest =>
      obtain ⟨u, lower, upper⟩ := ih rest
      exact ⟨u, .up found above lower, upper⟩

/-- A chain with more steps than there are units passes some unit twice. -/
theorem exists_repeated {name : Name} {steps : Nat} {v : UnitSummary}
    (ascends : p.Ascends name steps v) (long : p.size ≤ steps) :
    ∃ first second u, first < second ∧ second ≤ steps ∧ p.Ascends name first u ∧
      p.Ascends name second u := by
  have passed : ∀ i : Fin (steps + 1), ∃ u, p.Ascends name i u := by
    intro i
    have whole : (i : Nat) + (steps - i) = steps := by omega
    rw [← whole] at ascends
    obtain ⟨u, lower, _⟩ := ascends.split
    exact ⟨u, lower⟩
  choose unit reaches using passed
  have fewer : p.units.toFinset.card < (Finset.univ : Finset (Fin (steps + 1))).card := by
    have few : p.units.toFinset.card ≤ p.size := List.toFinset_card_le p.units
    rw [Finset.card_univ, Fintype.card_fin]
    omega
  have inside : Set.MapsTo unit (Finset.univ : Finset (Fin (steps + 1))) p.units.toFinset := by
    intro i _
    have member := (p.find?_eq_some_iff.mp (reaches i).found).1
    simpa using member
  obtain ⟨i, _, j, _, distinct, same⟩ :=
    Finset.exists_ne_map_eq_of_card_lt_of_maps_to fewer inside
  rcases Nat.lt_or_gt_of_ne (Fin.val_ne_of_ne distinct) with lower | higher
  · exact ⟨i, j, unit i, lower, by omega, reaches i, same ▸ reaches j⟩
  · exact ⟨j, i, unit i, higher, by omega, same ▸ reaches j, reaches i⟩

/-- So what is above a unit is above it in fewer steps than there are units. -/
theorem exists_lt_size {name : Name} {steps : Nat} {v : UnitSummary}
    (ascends : p.Ascends name steps v) : ∃ fewer, fewer < p.size ∧ fewer ≤ steps ∧
      p.Ascends name fewer v := by
  induction steps using Nat.strong_induction_on with
  | h steps ih =>
    by_cases short : steps < p.size
    · exact ⟨steps, short, Nat.le_refl _, ascends⟩
    · obtain ⟨first, second, u, lower, bounded, once, again⟩ :=
        ascends.exists_repeated (Nat.le_of_not_lt short)
      have whole : second + (steps - second) = steps := by omega
      rw [← whole] at ascends
      obtain ⟨w, lowerPart, upper⟩ := ascends.split
      obtain rfl := lowerPart.unique again
      obtain ⟨fewer, small, le, reached⟩ :=
        ih (first + (steps - second)) (by omega) (once.trans upper)
      exact ⟨fewer, small, by omega, reached⟩

end Ascends

theorem getElem?_chain {rounds steps : Nat} {name : Name} {v : UnitSummary} :
    (Hierarchy.chain p.find? rounds (some name))[steps]? = some v ↔
      steps < rounds ∧ p.Ascends name steps v := by
  induction rounds generalizing name steps with
  | zero => simp [Hierarchy.chain]
  | succ rounds ih =>
    rw [Hierarchy.chain, Option.bind_some]
    cases found : p.find? name with
    | none =>
      constructor
      · intro listed
        simp at listed
      · rintro ⟨_, ascends⟩
        cases ascends with
        | self again | up again => rw [found] at again; cases again
    | some u =>
      cases steps with
      | zero =>
        constructor
        · intro first
          obtain rfl := Option.some.inj first
          exact ⟨Nat.succ_pos _, .self found⟩
        · rintro ⟨_, ascends⟩
          rw [ascends.unique (.self found)]
          rfl
      | succ steps =>
        rw [List.getElem?_cons_succ]
        cases above : u.superclass with
        | none =>
          have ends : Hierarchy.chain p.find? rounds none = [] := by
            cases rounds <;> rfl
          rw [ends]
          constructor
          · intro listed
            simp at listed
          · rintro ⟨_, ascends⟩
            cases ascends with
            | up again beside =>
              obtain rfl := Option.some.inj (found.symm.trans again)
              rw [above] at beside
              cases beside
        | some parent =>
          rw [ih, Nat.succ_lt_succ_iff]
          refine and_congr_right fun _ => ⟨fun rest => .up found above rest, fun ascends => ?_⟩
          cases ascends with
          | up again beside rest =>
            obtain rfl := Option.some.inj (found.symm.trans again)
            obtain rfl := Option.some.inj (above.symm.trans beside)
            exact rest

theorem getElem?_superclasses {cls : Name} {steps : Nat} {v : UnitSummary} :
    (p.superclasses cls)[steps]? = some v ↔ steps < p.size ∧ p.Ascends cls steps v :=
  getElem?_chain

/-- The bound on the search cuts off nothing. -/
theorem mem_superclasses_iff {cls : Name} {v : UnitSummary} :
    v ∈ p.superclasses cls ↔ ∃ steps, p.Ascends cls steps v := by
  rw [List.mem_iff_getElem?]
  simp only [getElem?_superclasses]
  constructor
  · rintro ⟨steps, _, ascends⟩
    exact ⟨steps, ascends⟩
  · rintro ⟨steps, ascends⟩
    obtain ⟨fewer, small, _, ascends⟩ := ascends.exists_lt_size
    exact ⟨fewer, small, ascends⟩

theorem isHostProvided_iff {cls : Name} :
    p.isHostProvided cls = true ↔ ∃ steps u, p.Ascends cls steps u ∧ u.kind = .nativeClass := by
  simp only [isHostProvided, List.any_eq_true, mem_superclasses_iff, UnitKind.isNative,
    decide_eq_true_eq]
  constructor
  · rintro ⟨u, ⟨steps, ascends⟩, native⟩
    exact ⟨steps, u, ascends, native⟩
  · rintro ⟨steps, u, ascends, native⟩
    exact ⟨u, ⟨steps, ascends⟩, native⟩

/-! The body that is inherited. -/

section Resolution

variable {cls method owner : Name}

theorem exists_nearest {steps : Nat} {u : UnitSummary} (ascends : p.Ascends cls steps u)
    (implements : u.Implements method) : ∃ v, p.Nearest cls method v := by
  classical
  have some : ∃ steps u, p.Ascends cls steps u ∧ u.Implements method :=
    ⟨steps, u, ascends, implements⟩
  obtain ⟨v, reached, has⟩ := Nat.find_spec some
  refine ⟨v, Nat.find some, reached, has, ?_⟩
  intro fewer lower w above also
  exact Nat.find_min some lower ⟨w, above, also⟩

variable (ordered : p.Ordered)
include ordered

theorem hasBody_iff {u : UnitSummary} (found : p.find? owner = some u) :
    p.hasBody owner method = true ↔ u.Implements method := by
  rw [hasBody, Option.isSome_iff_exists]
  simp only [body?_eq_some_iff]
  constructor
  · rintro ⟨slot, declared, concrete⟩
    obtain ⟨m, present, named⟩ := member?_of_slot? declared
    obtain ⟨v, again, stands⟩ := member?_eq_some_iff.mp present
    rw [owner_of_slot? declared] at again
    obtain rfl := Option.some.inj (found.symm.trans again)
    obtain ⟨n, also, concrete⟩ := abstract?_eq_some_iff.mp concrete
    obtain rfl := Option.some.inj (present.symm.trans also)
    exact ⟨m, List.mem_of_getElem? stands, named, concrete⟩
  · rintro ⟨m, member, named, concrete⟩
    obtain ⟨i, stands⟩ := List.mem_iff_getElem?.mp member
    have present : p.member? ⟨owner, i⟩ = some m := member?_eq_some_iff.mpr ⟨u, found, stands⟩
    have declared := slot?_ref ordered present
    rw [ref_of_member? present, named] at declared
    exact ⟨⟨owner, i⟩, declared, abstract?_eq_some_iff.mpr ⟨m, present, concrete⟩⟩

theorem inherited?_eq_some {u : UnitSummary} (nearest : p.Nearest cls method u) :
    p.inherited? cls method = some u.name := by
  obtain ⟨steps, ascends, implements, least⟩ := nearest
  have small : steps < p.size := by
    obtain ⟨fewer, small, le, again⟩ := ascends.exists_lt_size
    rcases Nat.lt_or_eq_of_le le with lower | rfl
    · exact absurd implements (least fewer lower u again)
    · exact small
  obtain ⟨inside, here⟩ := List.getElem?_eq_some_iff.mp (getElem?_superclasses.mpr ⟨small, ascends⟩)
  rw [inherited?, List.find?_map, Option.map_eq_some_iff]
  refine ⟨u, List.find?_eq_some_iff_getElem.mpr ⟨?_, steps, inside, here, ?_⟩, rfl⟩
  · exact (hasBody_iff ordered ascends.found).mpr implements
  · intro fewer lower
    have listed := List.getElem?_eq_getElem (Nat.lt_trans lower inside)
    have earlier := (getElem?_superclasses.mp listed).2
    have lacks := least fewer lower _ earlier
    rw [← hasBody_iff ordered earlier.found] at lacks
    simpa using lacks

theorem inherited?_eq_none_iff :
    p.inherited? cls method = none ↔ ∀ steps u, p.Ascends cls steps u → ¬ u.Implements method := by
  constructor
  · intro none steps u ascends implements
    obtain ⟨v, nearest⟩ := exists_nearest ascends implements
    rw [inherited?_eq_some ordered nearest] at none
    cases none
  · intro lacks
    rw [inherited?, List.find?_map, Option.map_eq_none_iff, List.find?_eq_none]
    intro u member has
    obtain ⟨steps, ascends⟩ := mem_superclasses_iff.mp member
    exact lacks steps u ascends ((hasBody_iff ordered ascends.found).mp has)

/-! The bodies of the interfaces. -/

theorem mem_defaults_iff : owner ∈ p.defaults cls method ↔ p.Candidate cls method owner := by
  rw [defaults, defaultsAmong, List.mem_filter, Bool.and_eq_true, decide_eq_true_eq, kind?,
    Option.map_eq_some_iff]
  constructor
  · rintro ⟨above, ⟨u, found, kind⟩, has⟩
    exact ⟨p.inherits_of_mem_ancestors above, u, found, kind, (hasBody_iff ordered found).mp has⟩
  · rintro ⟨inherits, u, found, kind, implements⟩
    have present := inherits.presentBelow (p.contains_of_find? found)
    exact ⟨(p.mem_ancestors_iff present).mpr inherits, ⟨u, found, kind⟩,
      (hasBody_iff ordered found).mpr implements⟩

theorem any_defaults_iff :
    ((p.defaults cls method).any fun other =>
        other ≠ owner && (p.ancestors other).contains owner) = true ↔
      ∃ other, p.Candidate cls method other ∧ other ≠ owner ∧ p.Inherits other owner := by
  simp only [List.any_eq_true, mem_defaults_iff ordered, Bool.and_eq_true, decide_eq_true_eq,
    List.contains_iff_mem]
  refine exists_congr fun other => and_congr_right fun candidate => and_congr_right fun _ => ?_
  obtain ⟨_, u, found, _⟩ := candidate
  exact p.mem_ancestors_iff (p.contains_of_find? found)

theorem undominated_iff :
    p.Undominated cls method owner ↔ owner ∈ p.defaults cls method ∧
      (!(p.defaults cls method).any fun other =>
        other ≠ owner && (p.ancestors other).contains owner) = true := by
  rw [Bool.not_eq_true', ← Bool.not_eq_true, any_defaults_iff ordered, mem_defaults_iff ordered]
  simp only [Undominated, not_exists, not_and]

theorem default?_eq_none_iff :
    p.default? cls method = none ↔ ∀ owner, ¬ p.Undominated cls method owner := by
  simp only [default?, List.find?_eq_none, undominated_iff ordered, not_and]

theorem default?_eq_some_iff :
    p.default? cls method = some owner ↔ ∃ before after,
      p.ancestors cls = before ++ owner :: after ∧ p.Undominated cls method owner ∧
        ∀ earlier ∈ before, ¬ p.Undominated cls method earlier := by
  apply find?_filter_eq_some_iff
  intro name above
  rw [undominated_iff ordered, defaults, defaultsAmong, List.mem_filter, and_iff_right above]

theorem exists_undominated (acyclic : p.Acyclic) (candidate : p.Candidate cls method owner) :
    ∃ chosen, p.Undominated cls method chosen := by
  have strict : IsStrictOrder Name (Relation.TransGen p.HasParent) :=
    { irrefl := acyclic, trans := fun _ _ _ => Relation.TransGen.trans }
  have finite : {name | p.Candidate cls method name}.Finite := by
    simp only [← mem_defaults_iff ordered]
    exact List.finite_toSet _
  have founded : {name | p.Candidate cls method name}.WellFoundedOn
      (Relation.TransGen p.HasParent) := finite.wellFoundedOn
  obtain ⟨⟨chosen, chosenCandidate⟩, _, lowest⟩ :=
    founded.has_min Set.univ ⟨⟨owner, candidate⟩, trivial⟩
  refine ⟨chosen, chosenCandidate, ?_⟩
  intro other rival distinct inherits
  rcases Relation.reflTransGen_iff_eq_or_transGen.mp inherits with same | above
  · exact distinct same.symm
  · exact lowest ⟨other, rival⟩ trivial above

end Resolution

/-- A call runs the nearest inherited body, and otherwise the first undominated one of an interface.
Without cycles only a method that nothing above the class implements is not found. -/
theorem implementation?_resolves (ordered : p.Ordered) (cls method : Name) :
    ((∃ steps u, p.Ascends cls steps u ∧ u.Implements method) →
      ∃ u, p.Nearest cls method u ∧ p.implementation? cls method = some u.name) ∧
    ((∀ steps u, p.Ascends cls steps u → ¬ u.Implements method) →
      (∀ owner, p.implementation? cls method = some owner ↔ ∃ before after,
        p.ancestors cls = before ++ owner :: after ∧ p.Undominated cls method owner ∧
          ∀ earlier ∈ before, ¬ p.Undominated cls method earlier) ∧
      (p.implementation? cls method = none ↔ ∀ owner, ¬ p.Undominated cls method owner)) ∧
    (p.Acyclic →
      (p.implementation? cls method = none ↔
        (∀ steps u, p.Ascends cls steps u → ¬ u.Implements method) ∧
          ∀ owner, ¬ p.Candidate cls method owner) ∧
      ∀ owner, (∀ steps u, p.Ascends cls steps u → ¬ u.Implements method) →
        p.implementation? cls method = some owner →
          ∀ other, p.Candidate cls method other → ¬ Relation.TransGen p.HasParent other owner) ∧
    (p.isHostProvided cls = true ↔ ∃ steps u, p.Ascends cls steps u ∧ u.kind = .nativeClass) := by
  have falls : (∀ steps u, p.Ascends cls steps u → ¬ u.Implements method) →
      p.implementation? cls method = p.default? cls method := by
    intro lacks
    rw [implementation?, (inherited?_eq_none_iff ordered).mpr lacks, Option.none_or]
  refine ⟨?_, fun lacks => ⟨fun owner => ?_, ?_⟩, fun acyclic => ⟨?_, ?_⟩, isHostProvided_iff⟩
  · rintro ⟨steps, u, ascends, implements⟩
    obtain ⟨v, nearest⟩ := exists_nearest ascends implements
    exact ⟨v, nearest, by rw [implementation?, inherited?_eq_some ordered nearest, Option.some_or]⟩
  · rw [falls lacks, default?_eq_some_iff ordered]
  · rw [falls lacks, default?_eq_none_iff ordered]
  · rw [implementation?, Option.or_eq_none_iff, inherited?_eq_none_iff ordered,
      default?_eq_none_iff ordered]
    refine and_congr_right fun _ => ⟨fun none owner candidate => ?_, fun none owner chosen => ?_⟩
    · obtain ⟨chosen, undominated⟩ := exists_undominated ordered acyclic candidate
      exact none chosen undominated
    · exact none owner chosen.1
  · intro owner lacks found other candidate strict
    rw [falls lacks, default?_eq_some_iff ordered] at found
    obtain ⟨_, _, _, undominated, _⟩ := found
    by_cases same : other = owner
    · rw [same] at strict
      exact acyclic owner strict
    · exact undominated.2 other candidate same strict.to_reflTransGen

end Program

/-- An interface, another one that overrides its body, a class of the host, and a subclass of that
class with both interfaces. -/
def layered : List UnitSummary :=
  [{ name := ⟨20⟩, kind := .interface, members := [{ selector := .method ⟨31⟩ }] },
   { name := ⟨21⟩, kind := .interface, interfaces := [⟨20⟩],
     members := [{ selector := .method ⟨31⟩ }] },
   { name := ⟨22⟩, kind := .nativeClass },
   { name := ⟨23⟩, kind := .plainClass, superclass := some ⟨22⟩, interfaces := [⟨20⟩, ⟨21⟩],
     members := [{ selector := .method ⟨31⟩, isAbstract := true }] }]

-- The class declares the interface whose body is overridden first.
theorem implementation?_layered :
    let p := Program.ofUnits layered
    p.Ordered ∧ p.Acyclic ∧ p.implementation? ⟨23⟩ ⟨31⟩ = some ⟨21⟩ ∧
      p.Candidate ⟨23⟩ ⟨31⟩ ⟨20⟩ ∧ p.Undominated ⟨23⟩ ⟨31⟩ ⟨21⟩ ∧
      ¬ Relation.TransGen p.HasParent ⟨20⟩ ⟨21⟩ ∧
      ∃ steps u, p.Ascends ⟨23⟩ steps u ∧ u.kind = .nativeClass := by
  intro p
  have ordered : p.Ordered := by
    unfold Program.Ordered Ascending.By
    decide
  have acyclic : p.Acyclic := by
    have lower : ∀ u ∈ p.units, ∀ parent ∈ u.parents, parent.index < u.name.index := by decide
    exact Program.acyclic_of_rank lower
  have runs : p.implementation? ⟨23⟩ ⟨31⟩ = some ⟨21⟩ := by decide
  have lacks := (Program.inherited?_eq_none_iff ordered).mp
    (show p.inherited? ⟨23⟩ ⟨31⟩ = none by decide)
  have candidate : p.Candidate ⟨23⟩ ⟨31⟩ ⟨20⟩ := (Program.mem_defaults_iff ordered).mp (by decide)
  obtain ⟨_, first, specific, host⟩ := Program.implementation?_resolves ordered ⟨23⟩ ⟨31⟩
  obtain ⟨_, _, _, undominated, _⟩ := ((first lacks).1 _).mp runs
  exact ⟨ordered, acyclic, runs, candidate, undominated,
    (specific acyclic).2 _ lacks runs _ candidate, host.mp (by decide)⟩

end TreeShake
