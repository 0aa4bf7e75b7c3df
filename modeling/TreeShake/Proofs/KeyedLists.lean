import Mathlib.Data.List.Sort
import TreeShake.Ascending

set_option autoImplicit false

/-!
What an ascending list holds. It is determined by its entries, an entry is found by its key, and
collecting entries with distinct keys loses none of them. Entries that are added to a list with the
same keys change it in place.
-/

namespace TreeShake.Ascending

universe u v
variable {α : Type u} {κ : Type v} [Ord κ] {key : α → κ} {combine : α → α → α}

theorem mem_upsert_of_fresh [Std.LawfulEqOrd κ] {entry e : α} {entries : List α}
    (fresh : key entry ∉ entries.map key) :
    e ∈ upsert key combine entry entries ↔ e = entry ∨ e ∈ entries := by
  induction entries with
  | nil => simp
  | cons old rest ih =>
    rw [List.map_cons, List.mem_cons, not_or] at fresh
    unfold upsert
    split
    · simp
    · next same => exact absurd (Std.LawfulEqOrd.eq_of_compare same) fresh.1
    · rw [List.mem_cons, ih fresh.2, List.mem_cons]
      exact or_left_comm

theorem forall_mem_upsert {holds : α → Prop} {entry : α} {entries : List α} (new : holds entry)
    (each : ∀ old ∈ entries, holds old) (joined : ∀ old ∈ entries, holds (combine old entry)) :
    ∀ e ∈ upsert key combine entry entries, holds e := by
  induction entries with
  | nil => simpa using new
  | cons old rest ih =>
    rw [List.forall_mem_cons] at each joined
    unfold upsert
    split
    · exact List.forall_mem_cons.mpr ⟨new, List.forall_mem_cons.mpr each⟩
    · exact List.forall_mem_cons.mpr ⟨joined.1, each.2⟩
    · exact List.forall_mem_cons.mpr ⟨each.1, ih each.2 joined.2⟩

theorem by_foldl_upsert [Std.TransOrd κ] [Std.LawfulEqOrd κ]
    (keeps : ∀ old entry, key (combine old entry) = key old) (entries : List α) {collected : List α}
    (ascending : By key collected) :
    By key (entries.foldl (fun collected entry => upsert key combine entry collected) collected) := by
  induction entries generalizing collected with
  | nil => exact ascending
  | cons entry rest ih => exact ih (by_upsert key combine keeps entry ascending)

theorem by_collect [Std.TransOrd κ] [Std.LawfulEqOrd κ]
    (keeps : ∀ old entry, key (combine old entry) = key old) (entries : List α) :
    By key (collect key combine entries) :=
  by_foldl_upsert keeps entries List.Pairwise.nil

theorem mem_collect [Std.LawfulEqOrd κ]
    (keeps : ∀ old entry, key (combine old entry) = key old) {entries : List α} {e : α}
    (distinct : (entries.map key).Nodup) : e ∈ collect key combine entries ↔ e ∈ entries := by
  -- The keys that are collected already differ from those to come.
  suffices general : ∀ collected : List α, (∀ entry ∈ entries, key entry ∉ collected.map key) →
      (e ∈ entries.foldl (fun collected entry => upsert key combine entry collected) collected ↔
        e ∈ collected ∨ e ∈ entries) by
    simpa [collect] using general [] (by simp)
  induction entries with
  | nil => simp
  | cons first rest ih =>
    intro collected fresh
    obtain ⟨unique, distinct⟩ := List.nodup_cons.mp distinct
    have freshFirst := fresh first List.mem_cons_self
    rw [List.foldl_cons, ih distinct, mem_upsert_of_fresh freshFirst, List.mem_cons, or_assoc]
    · exact or_left_comm
    · intro later member held
      rcases (mem_keys_upsert key combine keeps first collected (key later)).mp held with same | held
      · exact unique (same ▸ List.mem_map_of_mem member)
      · exact fresh later (List.mem_cons_of_mem _ member) held

theorem not_below_self [Std.TransOrd κ] (k : κ) : compare k k ≠ .lt := by simp

theorem find?_eq_some_iff [Std.TransOrd κ] [DecidableEq κ] {entries : List α} {k : κ} {e : α}
    (ascending : By key entries) :
    entries.find? (fun entry => key entry = k) = some e ↔ e ∈ entries ∧ key e = k := by
  induction entries with
  | nil => simp
  | cons first rest ih =>
    obtain ⟨below, ascending⟩ := List.pairwise_cons.mp ascending
    rw [List.find?_cons, List.mem_cons]
    by_cases same : key first = k
    · simp only [same, decide_true, Option.some.injEq]
      constructor
      · rintro rfl
        exact ⟨.inl rfl, same⟩
      · rintro ⟨rfl | later, found⟩
        · rfl
        · have lower := below e later
          rw [same, found] at lower
          exact absurd lower (not_below_self k)
    · simp only [same, decide_false, ih ascending]
      constructor
      · rintro ⟨later, found⟩
        exact ⟨.inr later, found⟩
      · rintro ⟨rfl | later, found⟩
        · exact absurd found same
        · exact ⟨later, found⟩

theorem eq_of_key_eq [Std.TransOrd κ] [DecidableEq κ] {entries : List α} {first second : α}
    (ascending : By key entries) (member : first ∈ entries) (other : second ∈ entries)
    (same : key first = key second) : first = second := by
  have found := (find?_eq_some_iff ascending).mpr ⟨member, same⟩
  rw [(find?_eq_some_iff ascending).mpr ⟨other, rfl⟩] at found
  exact (Option.some.inj found).symm

/-- Two ascending lists with the same entries are equal. -/
theorem eq_of_mem_iff [Std.TransOrd κ] {first second : List α} (ascending : By key first)
    (other : By key second) (same : ∀ e, e ∈ first ↔ e ∈ second) : first = second := by
  have antisymm : Std.Antisymm fun a b : α => compare (key a) (key b) = .lt := by
    refine ⟨fun a b lower higher => ?_⟩
    rw [Std.OrientedCmp.gt_of_lt lower] at higher
    cases higher
  have irrefl : Std.Irrefl fun a b : α => compare (key a) (key b) = .lt :=
    ⟨fun a => not_below_self (key a)⟩
  exact ascending.eq_of_mem_iff other same

/-- An insertion into an ascending list leaves the entries with other keys as they are, and it
combines the entry with the one that has its key, if there is one. -/
theorem mem_upsert_iff [Std.TransOrd κ] [Std.LawfulEqOrd κ] {entry e : α} {entries : List α}
    (ascending : By key entries) :
    e ∈ upsert key combine entry entries ↔
      (e ∈ entries ∧ key e ≠ key entry) ∨
      (∃ old ∈ entries, key old = key entry ∧ e = combine old entry) ∨
      (key entry ∉ entries.map key ∧ e = entry) := by
  induction entries with
  | nil => simp
  | cons first rest ih =>
    obtain ⟨below, ascending⟩ := List.pairwise_cons.mp ascending
    have distinct : ∀ later ∈ rest, key later ≠ key first := by
      intro later member same
      have lower := below later member
      rw [same] at lower
      exact not_below_self _ lower
    unfold upsert
    split
    · next lower =>
      -- The entry is below all keys, so none is its own.
      have fresh : ∀ other ∈ first :: rest, key other ≠ key entry := by
        intro other member same
        rcases List.mem_cons.mp member with rfl | later
        · rw [same] at lower
          exact not_below_self _ lower
        · have between := Std.TransCmp.lt_trans lower (below other later)
          rw [same] at between
          exact not_below_self _ between
      grind
    · next same =>
      have same : key entry = key first := Std.LawfulEqOrd.eq_of_compare same
      grind
    · next higher =>
      have other : key first ≠ key entry := by
        intro same
        simp [same] at higher
      rw [List.mem_cons, ih ascending]
      grind

theorem foldl_upsert_cons [Std.OrientedOrd κ] {first : α} {entries : List α} (rest : List α)
    (above : ∀ e ∈ entries, compare (key first) (key e) = .lt) :
    entries.foldl (fun collected e => upsert key combine e collected) (first :: rest) =
      first :: entries.foldl (fun collected e => upsert key combine e collected) rest := by
  induction entries generalizing rest with
  | nil => rfl
  | cons e later ih =>
    rw [List.forall_mem_cons] at above
    have higher : compare (key e) (key first) = .gt := Std.OrientedCmp.gt_of_lt above.1
    rw [List.foldl_cons, List.foldl_cons, upsert, higher]
    exact ih _ above.2

/-- Entries that are added to a list with the same keys are combined with the old ones, each with
the one in its place. -/
theorem foldl_upsert_eq_zipWith [Std.TransOrd κ]
    (keeps : ∀ old entry, key (combine old entry) = key old) {older newer : List α}
    (ascending : By key older) (same : older.map key = newer.map key) :
    newer.foldl (fun collected e => upsert key combine e collected) older =
      List.zipWith combine older newer := by
  induction older generalizing newer with
  | nil =>
    obtain rfl := List.map_eq_nil_iff.mp same.symm
    rfl
  | cons old rest ih =>
    obtain ⟨entry, later, rfl, first, same⟩ := List.map_eq_cons_iff.mp same.symm
    obtain ⟨below, ascending⟩ := List.pairwise_cons.mp ascending
    have combined : upsert key combine entry (old :: rest) = combine old entry :: rest := by
      simp [upsert, first]
    have above : ∀ e ∈ later, compare (key (combine old entry)) (key e) = .lt := by
      intro e member
      have known : key e ∈ rest.map key := same ▸ List.mem_map_of_mem member
      obtain ⟨other, inside, equal⟩ := List.mem_map.mp known
      rw [keeps, ← equal]
      exact below other inside
    rw [List.foldl_cons, combined, foldl_upsert_cons rest above, ih ascending same.symm]
    rfl

end TreeShake.Ascending
