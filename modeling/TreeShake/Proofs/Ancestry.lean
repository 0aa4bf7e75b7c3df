import Mathlib.Data.List.TakeWhile
import Mathlib.Logic.Relation
import TreeShake.Program.Dispatch

set_option autoImplicit false

/-!
The units above a unit. The search through the hierarchy has a round for each unit of the program.
A round finds a unit that was not found before, so the rounds do not run out: the search finds
exactly what is above the unit, on cyclic hierarchies and with missing parents too.
-/

namespace TreeShake

/-- What is left of a worklist when the entries at its front that are done with are dropped. -/
theorem mem_of_dropWhile_eq_cons {α : Type} {isDone : α → Bool} {pending rest : List α} {next : α}
    (dropped : pending.dropWhile isDone = next :: rest) :
    isDone next = false ∧ next ∈ pending ∧ rest ⊆ pending ∧
      ∀ a ∈ pending, isDone a = true ∨ a = next ∨ a ∈ rest := by
  induction pending with
  | nil => simp at dropped
  | cons first later ih =>
    cases done : isDone first with
    | true =>
      rw [List.dropWhile_cons_of_pos done] at dropped
      obtain ⟨open_, member, inside, covered⟩ := ih dropped
      refine ⟨open_, List.mem_cons_of_mem _ member, fun a h => List.mem_cons_of_mem _ (inside h), ?_⟩
      intro a h
      rcases List.mem_cons.mp h with rfl | h
      · exact .inl done
      · exact covered a h
    | false =>
      rw [List.dropWhile_cons_of_neg (by simp [done])] at dropped
      obtain ⟨rfl, rfl⟩ := List.cons.inj dropped
      refine ⟨done, List.mem_cons_self, fun a h => List.mem_cons_of_mem _ h, ?_⟩
      intro a h
      exact .inr (List.mem_cons.mp h)

theorem countP_lt_countP {α : Type} {fewer more : α → Bool} {entries : List α} {a : α}
    (weaker : ∀ b ∈ entries, fewer b = true → more b = true) (member : a ∈ entries)
    (dropped : fewer a = false) (counted : more a = true) :
    entries.countP fewer < entries.countP more := by
  induction entries with
  | nil => simp at member
  | cons first later ih =>
    have weakerLater : ∀ b ∈ later, fewer b = true → more b = true :=
      fun b h => weaker b (List.mem_cons_of_mem _ h)
    rcases List.mem_cons.mp member with rfl | member
    · have rest := List.countP_mono_left weakerLater
      simp only [List.countP_cons, dropped, counted, Bool.false_eq_true, if_true, if_false]
      omega
    · have rest := ih weakerLater member
      have head := weaker first List.mem_cons_self
      simp only [List.countP_cons]
      split <;> split <;> simp_all
      omega

namespace Program

variable (p : Program)

theorem contains_iff {name : Name} : p.contains name = true ↔ ∃ u, p.find? name = some u := by
  simp [contains, Option.isSome_iff_exists]

theorem contains_of_find? {name : Name} {u : UnitSummary} (found : p.find? name = some u) :
    p.contains name = true :=
  p.contains_iff.mpr ⟨u, found⟩

/-- A parent that the program has. -/
def HasParent (name parent : Name) : Prop := parent ∈ p.parents name ∧ p.contains parent = true

/-- The second unit is the first one or above it. -/
def Inherits : Name → Name → Prop := Relation.ReflTransGen p.HasParent

theorem mem_parents {name parent : Name} :
    parent ∈ Hierarchy.parents p.find? name ↔ p.HasParent name parent := by
  simp [Hierarchy.parents, HasParent, parents, contains]

variable {p} in
theorem Inherits.present {name ancestor : Name} (inherits : p.Inherits name ancestor)
    (present : p.contains name = true) : p.contains ancestor = true := by
  induction inherits with
  | refl => exact present
  | tail _ parent _ => exact parent.2

theorem contains_of_mem_parents {name parent : Name} (above : parent ∈ p.parents name) :
    p.contains name = true := by
  unfold parents Hierarchy.declared at above
  cases found : p.find? name with
  | none => simp [found] at above
  | some u => exact p.contains_of_find? found

variable {p} in
theorem Inherits.presentBelow {name ancestor : Name} (inherits : p.Inherits name ancestor)
    (present : p.contains ancestor = true) : p.contains name = true := by
  rcases Relation.ReflTransGen.cases_head inherits with rfl | ⟨parent, above, _⟩
  · exact present
  · exact p.contains_of_mem_parents above.1

theorem contains_of_mem_superclasses {name : Name} {u : UnitSummary}
    (above : u ∈ p.superclasses name) : p.contains name = true := by
  unfold superclasses Hierarchy.superclasses at above
  cases found : p.find? name with
  | none => cases size : p.size <;> simp [size, Hierarchy.chain, found] at above
  | some u => exact p.contains_of_find? found

/-- How many units are not among the known ones. -/
def unknown (known : Name → Bool) : Nat := p.units.countP fun u => !known u.name

theorem unknown_le_size (known : Name → Bool) : p.unknown known ≤ p.size := List.countP_le_length

/-- Getting to know a unit leaves fewer that are not known. -/
theorem unknown_lt {known later : Name → Bool} {name : Name} (present : p.contains name = true)
    (fresh : known name = false) (kept : ∀ n, known n = true → later n = true)
    (learned : later name = true) : p.unknown later < p.unknown known := by
  obtain ⟨u, found⟩ := p.contains_iff.mp present
  obtain ⟨member, rfl⟩ := p.find?_eq_some_iff.mp found
  refine countP_lt_countP ?_ member ?_ ?_
  · intro v _ unknownLater
    cases before : known v.name with
    | false => rfl
    | true => simp [kept _ before] at unknownLater
  · simp [learned]
  · simp [fresh]

theorem known_of_unknown_eq_zero {known : Name → Bool} (none : p.unknown known = 0) {name : Name}
    (present : p.contains name = true) : known name = true := by
  obtain ⟨u, found⟩ := p.contains_iff.mp present
  obtain ⟨member, rfl⟩ := p.find?_eq_some_iff.mp found
  simpa using List.countP_eq_zero.mp none u member

theorem ascend_inherits {root : Name} {rounds : Nat} {found pending : List Name}
    (foundAbove : ∀ n ∈ found, p.Inherits root n) (pendingAbove : ∀ n ∈ pending, p.Inherits root n) :
    ∀ n ∈ Hierarchy.ascend p.find? rounds found pending, p.Inherits root n := by
  induction rounds generalizing found pending with
  | zero => exact foundAbove
  | succ rounds ih =>
    rw [Hierarchy.ascend]
    split
    · exact foundAbove
    · next next rest dropped =>
      obtain ⟨_, member, inside, _⟩ := mem_of_dropWhile_eq_cons dropped
      have above : p.Inherits root next := pendingAbove next member
      apply ih
      · intro n h
        rcases List.mem_append.mp h with h | h
        · exact foundAbove n h
        · rw [List.mem_singleton.mp h]
          exact above
      · intro n h
        rcases List.mem_append.mp h with h | h
        · exact above.tail (p.mem_parents.mp h)
        · exact pendingAbove n (inside h)

/-- A search that has found all that is pending is closed under parents. -/
theorem closed_of_pending_found {found pending : List Name} (all : ∀ n ∈ pending, n ∈ found)
    (closed : ∀ n ∈ found, ∀ parent, p.HasParent n parent → parent ∈ found ∨ parent ∈ pending) :
    (∀ n, n ∈ found ∨ n ∈ pending → n ∈ found) ∧
      ∀ n ∈ found, ∀ parent, p.HasParent n parent → parent ∈ found := by
  refine ⟨fun n h => h.elim id (all n), ?_⟩
  intro n h parent above
  exact (closed n h parent above).elim id (all parent)

/-- With a round for each unit that is not found yet, the search ends with a list that holds the
pending units and is closed under parents. -/
theorem ascend_complete {rounds : Nat} {found pending : List Name}
    (room : p.unknown found.contains ≤ rounds) (present : ∀ n ∈ pending, p.contains n = true)
    (closed : ∀ n ∈ found, ∀ parent, p.HasParent n parent → parent ∈ found ∨ parent ∈ pending) :
    (∀ n, n ∈ found ∨ n ∈ pending → n ∈ Hierarchy.ascend p.find? rounds found pending) ∧
      ∀ n ∈ Hierarchy.ascend p.find? rounds found pending, ∀ parent, p.HasParent n parent →
        parent ∈ Hierarchy.ascend p.find? rounds found pending := by
  induction rounds generalizing found pending with
  | zero =>
    have all : ∀ n ∈ pending, n ∈ found := fun n h => by
      simpa using p.known_of_unknown_eq_zero (Nat.le_zero.mp room) (present n h)
    exact p.closed_of_pending_found all closed
  | succ rounds ih =>
    rw [Hierarchy.ascend]
    split
    · next done =>
      have all : ∀ n ∈ pending, n ∈ found := fun n h => by
        simpa using List.dropWhile_eq_nil_iff.mp done n h
      exact p.closed_of_pending_found all closed
    · next next rest dropped =>
      obtain ⟨fresh, member, inside, covered⟩ := mem_of_dropWhile_eq_cons dropped
      have fewer : p.unknown (found ++ [next]).contains < p.unknown found.contains :=
        p.unknown_lt (present next member) fresh (fun n h => by simp_all) (by simp)
      have presentNext : ∀ n ∈ Hierarchy.parents p.find? next ++ rest, p.contains n = true := by
        intro n h
        rcases List.mem_append.mp h with h | h
        · exact (p.mem_parents.mp h).2
        · exact present n (inside h)
      -- What was pending is found already, is the unit of this round, or stays pending.
      have moved : ∀ n ∈ pending,
          n ∈ found ++ [next] ∨ n ∈ Hierarchy.parents p.find? next ++ rest := by
        intro n h
        rcases covered n h with h | rfl | h
        · exact .inl (List.mem_append_left _ (by simpa using h))
        · exact .inl (by simp)
        · exact .inr (List.mem_append_right _ h)
      have closedNext : ∀ n ∈ found ++ [next], ∀ parent, p.HasParent n parent →
          parent ∈ found ++ [next] ∨ parent ∈ Hierarchy.parents p.find? next ++ rest := by
        intro n h parent above
        rcases List.mem_append.mp h with h | h
        · rcases closed n h parent above with h | h
          · exact .inl (List.mem_append_left _ h)
          · exact moved parent h
        · rw [List.mem_singleton.mp h] at above
          exact .inr (List.mem_append_left _ (p.mem_parents.mpr above))
      obtain ⟨holds, above⟩ := ih (by omega) presentNext closedNext
      refine ⟨fun n h => holds n ?_, above⟩
      rcases h with h | h
      · exact .inl (List.mem_append_left _ h)
      · exact moved n h

theorem inherits_of_mem_ancestors {name ancestor : Name} (above : ancestor ∈ p.ancestors name) :
    p.Inherits name ancestor := by
  rw [ancestors, Hierarchy.ancestors] at above
  refine p.ascend_inherits (by simp) ?_ ancestor above
  intro n h
  rw [List.mem_singleton.mp h]
  exact .refl

/-- The ancestors of a unit are the unit and all that is above it. -/
theorem mem_ancestors_iff {name ancestor : Name} (present : p.contains name = true) :
    ancestor ∈ p.ancestors name ↔ p.Inherits name ancestor := by
  constructor
  · exact p.inherits_of_mem_ancestors
  · intro inherits
    rw [ancestors, Hierarchy.ancestors]
    obtain ⟨holds, above⟩ := p.ascend_complete (p.unknown_le_size [].contains)
      (show ∀ n ∈ [name], p.contains n = true by simpa using present) (by simp)
    induction inherits with
    | refl => exact holds name (by simp)
    | tail _ parent ih => exact above _ ih _ parent

/-- A round takes a unit that is not found yet, so no unit is found twice. -/
theorem nodup_ascend {rounds : Nat} {found pending : List Name} (distinct : found.Nodup) :
    (Hierarchy.ascend p.find? rounds found pending).Nodup := by
  induction rounds generalizing found pending with
  | zero => exact distinct
  | succ rounds ih =>
    rw [Hierarchy.ascend]
    split
    · exact distinct
    · next next rest dropped =>
      have fresh : next ∉ found := by simpa using (mem_of_dropWhile_eq_cons dropped).1
      apply ih
      rw [List.nodup_append]
      refine ⟨distinct, by simp, ?_⟩
      intro earlier member last added same
      exact fresh (List.mem_singleton.mp added ▸ same ▸ member)

theorem nodup_ancestors (name : Name) : (p.ancestors name).Nodup :=
  p.nodup_ascend List.nodup_nil

end Program

end TreeShake
