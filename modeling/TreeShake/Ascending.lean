set_option autoImplicit false

/-!
Lists kept strictly ascending by a key. One operation builds them all: an entry goes to its place,
and an entry whose key is already there is combined with it. Sets of names, values grouped by owner
and members ordered by selector are instances of it. A list that comes from elsewhere is searched by
halving, and gets new entries where a search ends. If it is ascending, this comes to the same.

The order is the `Ord` instance of the key. The lemmas ask that it is lawful.
-/

namespace TreeShake.Ascending

universe u v
variable {α : Type u} {κ : Type v} [Ord κ]

/-- Adds an entry at its place by `key`. The entry that already has this key, if any, becomes
`combine old entry`. -/
def upsert (key : α → κ) (combine : α → α → α) (entry : α) : List α → List α
  | [] => [entry]
  | old :: rest =>
    match compare (key entry) (key old) with
    | .lt => entry :: old :: rest
    | .eq => combine old entry :: rest
    | .gt => old :: upsert key combine entry rest

/-- Collects the entries one after the other. -/
def collect (key : α → κ) (combine : α → α → α) (entries : List α) : List α :=
  entries.foldl (fun collected entry => upsert key combine entry collected) []

/-- Each key is below every later one. -/
def By (key : α → κ) (entries : List α) : Prop :=
  entries.Pairwise fun a b => compare (key a) (key b) = .lt

instance (key : α → κ) (entries : List α) : Decidable (By key entries) :=
  inferInstanceAs (Decidable (entries.Pairwise fun a b => compare (key a) (key b) = .lt))

/-- Adds one element to an ascending set. -/
def insert (a : κ) (set : List κ) : List κ :=
  upsert id (fun old _ => old) a set

/-- Adds the elements to an ascending set. -/
def insertAll (set added : List κ) : List κ :=
  added.foldl (fun set a => insert a set) set

/-- The ascending set of the elements of a list. -/
def ofList (elements : List κ) : List κ :=
  insertAll [] elements

/-- Where a search by halving ends. The entries in question start at `base`, and there are `size` of
them; each comparison leaves one half. -/
def narrow (above : α → Bool) (entries : List α) : Nat → Nat → Nat → Nat
  | 0, base, _ => base
  | rounds + 1, base, size =>
    if size ≤ 1 then base
    else
      let middle := base + size / 2
      narrow above entries rounds (if entries[middle]?.any above then base else middle)
        (size - size / 2)

/-- Where a search for the key ends. -/
def pivot (key : α → κ) (wanted : κ) (entries : List α) : Nat :=
  narrow (fun a => compare (key a) wanted = .gt) entries entries.length 0 entries.length

/-- The position of an entry with the wanted key, by halving. On a list that is not ascending a key
may be missed, and of several entries with one key the comparisons decide which is found. -/
def position? (key : α → κ) (wanted : κ) (entries : List α) : Option Nat :=
  let base := pivot key wanted entries
  if entries[base]?.any fun a => compare (key a) wanted = .eq then some base else none

/-- Puts an entry where the search for its key ends: beside the entry there, or combined with it if
both have the same key. -/
def put (key : α → κ) (combine : α → α → α) (entry : α) (entries : List α) : List α :=
  let base := pivot key (key entry) entries
  match entries[base]? with
  | none => entries ++ [entry]
  | some old =>
    match compare (key old) (key entry) with
    | .lt => entries.take (base + 1) ++ entry :: entries.drop (base + 1)
    | .eq => entries.take base ++ combine old entry :: entries.drop (base + 1)
    | .gt => entries.take base ++ entry :: entries.drop base

@[simp] theorem upsert_nil (key : α → κ) (combine : α → α → α) (entry : α) :
    upsert key combine entry [] = [entry] := rfl

/-- The keys after an insertion are the old keys and the new one. -/
theorem mem_keys_upsert [Std.LawfulEqOrd κ] (key : α → κ) (combine : α → α → α)
    (keeps : ∀ old entry, key (combine old entry) = key old) (entry : α) (entries : List α) (k : κ) :
    k ∈ (upsert key combine entry entries).map key ↔ k = key entry ∨ k ∈ entries.map key := by
  induction entries with
  | nil => simp
  | cons old rest ih =>
    unfold upsert
    split
    · simp
    · next same =>
      have same := Std.LawfulEqOrd.eq_of_compare same
      simp [keeps, same]
    · simp only [List.map_cons, List.mem_cons, ih]
      exact or_left_comm

theorem by_upsert [Std.TransOrd κ] [Std.LawfulEqOrd κ] (key : α → κ) (combine : α → α → α)
    (keeps : ∀ old entry, key (combine old entry) = key old) (entry : α) {entries : List α}
    (ascending : By key entries) : By key (upsert key combine entry entries) := by
  induction entries with
  | nil => simp [By]
  | cons old rest ih =>
    obtain ⟨below, ascending⟩ := List.pairwise_cons.mp ascending
    unfold upsert
    split
    · next lower =>
      refine List.pairwise_cons.mpr ⟨?_, List.pairwise_cons.mpr ⟨below, ascending⟩⟩
      intro later member
      rcases List.mem_cons.mp member with rfl | member
      · exact lower
      · exact Std.TransCmp.lt_trans lower (below later member)
    · refine List.pairwise_cons.mpr ⟨?_, ascending⟩
      intro later member
      rw [keeps]
      exact below later member
    · next higher =>
      refine List.pairwise_cons.mpr ⟨?_, ih ascending⟩
      intro later member
      have found := (mem_keys_upsert key combine keeps entry rest (key later)).mp
        (List.mem_map_of_mem member)
      rcases found with found | found
      · rw [found]
        exact Std.OrientedCmp.lt_of_gt higher
      · obtain ⟨other, member, same⟩ := List.mem_map.mp found
        rw [← same]
        exact below other member

@[simp] theorem mem_insert [Std.LawfulEqOrd κ] {a b : κ} {set : List κ} :
    b ∈ insert a set ↔ b = a ∨ b ∈ set := by
  simpa [insert] using mem_keys_upsert id (fun old _ => old) (fun _ _ => rfl) a set b

theorem by_insert [Std.TransOrd κ] [Std.LawfulEqOrd κ] (a : κ) {set : List κ}
    (ascending : By id set) : By id (insert a set) :=
  by_upsert id _ (fun _ _ => rfl) a ascending

@[simp] theorem mem_insertAll [Std.LawfulEqOrd κ] {b : κ} {set added : List κ} :
    b ∈ insertAll set added ↔ b ∈ set ∨ b ∈ added := by
  induction added generalizing set with
  | nil => simp [insertAll]
  | cons a rest ih =>
    rw [insertAll, List.foldl_cons, ← insertAll, ih, mem_insert, List.mem_cons, or_assoc]
    exact or_left_comm

theorem by_insertAll [Std.TransOrd κ] [Std.LawfulEqOrd κ] {set : List κ} (added : List κ)
    (ascending : By id set) : By id (insertAll set added) := by
  induction added generalizing set with
  | nil => exact ascending
  | cons a rest ih => exact ih (by_insert a ascending)

@[simp] theorem mem_ofList [Std.LawfulEqOrd κ] {b : κ} {elements : List κ} :
    b ∈ ofList elements ↔ b ∈ elements := by
  simp [ofList]

theorem by_ofList [Std.TransOrd κ] [Std.LawfulEqOrd κ] (elements : List κ) :
    By id (ofList elements) :=
  by_insertAll elements List.Pairwise.nil

theorem narrow_map {β : Type v} (key : α → β) (above : β → Bool) (entries : List α)
    (rounds base size : Nat) :
    narrow (fun a => above (key a)) entries rounds base size =
      narrow above (entries.map key) rounds base size := by
  induction rounds generalizing base size with
  | zero => rfl
  | succ rounds ih =>
    have reads : ∀ i : Nat,
        entries[i]?.any (fun a => above (key a)) = (entries.map key)[i]?.any above := by
      intro i
      rw [List.getElem?_map, Option.any_map]
    simp only [narrow, ih, reads]

/-- The search reads the keys and nothing else. -/
theorem position?_map (key : α → κ) (wanted : κ) (entries : List α) :
    position? key wanted entries = position? id wanted (entries.map key) := by
  have base : pivot key wanted entries = pivot id wanted (entries.map key) := by
    rw [pivot, pivot, List.length_map]
    exact narrow_map key (fun k => compare k wanted = .gt) entries entries.length 0 entries.length
  simp only [position?, base, List.getElem?_map, Option.any_map]
  rfl

/-- What is found has the wanted key, whether the list is ascending or not. -/
theorem getElem?_of_position? [Std.LawfulEqOrd κ] {key : α → κ} {wanted : κ} {entries : List α}
    {i : Nat} (found : position? key wanted entries = some i) :
    ∃ a, entries[i]? = some a ∧ key a = wanted := by
  simp only [position?] at found
  split at found
  · next hit =>
    cases found
    obtain ⟨a, present, same⟩ := (Option.any_eq_true _ _).mp hit
    exact ⟨a, present, Std.LawfulEqOrd.eq_of_compare (of_decide_eq_true same)⟩
  · cases found

/-- Where those above come last, the search ends at the last entry that is not above, or at the
first one if all are. -/
theorem narrow_spec {above : α → Bool} {entries : List α}
    (sorted : entries.Pairwise fun a b => above a = true → above b = true) {rounds base size : Nat}
    (enough : size ≤ rounds + 1) (nonempty : 0 < size) (inside : base + size ≤ entries.length) :
    let last := narrow above entries rounds base size
    base ≤ last ∧ last < base + size ∧ (last = base ∨ entries[last]?.any above = false) ∧
      ∀ j, last < j → j < base + size → entries[j]?.any above = true := by
  induction rounds generalizing base size with
  | zero =>
    rw [narrow]
    exact ⟨Nat.le_refl _, by omega, .inl rfl, fun j _ _ => by omega⟩
  | succ rounds ih =>
    rw [narrow]
    split
    · exact ⟨Nat.le_refl _, by omega, .inl rfl, fun j _ _ => by omega⟩
    · dsimp only
      cases tested : entries[base + size / 2]?.any above with
      | true =>
        obtain ⟨lower, upper, stops, rest⟩ :=
          @ih base (size - size / 2) (by omega) (by omega) (by omega)
        rw [if_pos rfl]
        refine ⟨lower, by omega, stops, fun j after bound => ?_⟩
        by_cases inner : j < base + (size - size / 2)
        · exact rest j after inner
        -- What was left out starts at the middle, and is above because the middle is.
        · rcases Nat.lt_or_eq_of_le (show base + size / 2 ≤ j by omega) with later | rfl
          · have middle : base + size / 2 < entries.length := by omega
            have far : j < entries.length := by omega
            rw [List.getElem?_eq_getElem middle] at tested
            rw [List.getElem?_eq_getElem far]
            exact List.pairwise_iff_getElem.mp sorted _ j middle far later tested
          · exact tested
      | false =>
        obtain ⟨lower, upper, stops, rest⟩ :=
          @ih (base + size / 2) (size - size / 2) (by omega) (by omega) (by omega)
        rw [if_neg Bool.false_ne_true]
        refine ⟨by omega, by omega, .inr ?_, fun j after bound => rest j after (by omega)⟩
        rcases stops with same | notAbove
        · rwa [same]
        · exact notAbove

/-- In an ascending list a search ends between the entries below the wanted key and those above
it. -/
theorem pivot_spec [Std.TransOrd κ] {key : α → κ} {entries : List α} (ascending : By key entries)
    (wanted : κ) (nonempty : entries ≠ []) :
    pivot key wanted entries < entries.length ∧
      (∀ j a, entries[j]? = some a → j < pivot key wanted entries →
        compare (key a) wanted = .lt) ∧
      ∀ j a, entries[j]? = some a → pivot key wanted entries < j →
        compare (key a) wanted = .gt := by
  have sorted : entries.Pairwise fun a b => decide (compare (key a) wanted = .gt) = true →
      decide (compare (key b) wanted = .gt) = true := by
    refine ascending.imp fun lower above => ?_
    have higher := Std.OrientedCmp.lt_of_gt (of_decide_eq_true above)
    exact decide_eq_true (Std.OrientedCmp.gt_of_lt (Std.TransCmp.lt_trans higher lower))
  obtain ⟨_, upper, stops, later⟩ := narrow_spec sorted (Nat.le_succ entries.length)
    (List.length_pos_iff.mpr nonempty) (Nat.le_of_eq (Nat.zero_add _))
  rw [← pivot, Nat.zero_add] at upper
  rw [← pivot] at stops
  refine ⟨upper, fun j a stands before => ?_, fun j a stands after => ?_⟩
  · obtain ⟨bound, rfl⟩ := List.getElem?_eq_some_iff.mp stands
    rcases stops with first | notAbove
    · omega
    · rw [List.getElem?_eq_getElem upper, Option.any_some, decide_eq_false_iff_not,
        ← Ordering.isLE_iff_ne_gt] at notAbove
      exact Std.TransCmp.lt_of_lt_of_isLE
        (List.pairwise_iff_getElem.mp ascending j _ bound upper before) notAbove
  · obtain ⟨bound, -⟩ := List.getElem?_eq_some_iff.mp stands
    have above := later j after (by omega)
    rw [stands] at above
    exact of_decide_eq_true above

theorem position?_of_getElem? [Std.TransOrd κ] {key : α → κ} {entries : List α}
    (ascending : By key entries) {i : Nat} {a : α} (present : entries[i]? = some a) :
    position? key (key a) entries = some i := by
  have self : compare (key a) (key a) = .eq := Std.ReflOrd.compare_self
  obtain ⟨_, lower, upper⟩ := pivot_spec ascending (key a)
    (List.ne_nil_of_mem (List.mem_of_getElem? present))
  have ends : pivot key (key a) entries = i := by
    rcases Nat.lt_trichotomy i (pivot key (key a) entries) with before | same | after
    · have below := self.symm.trans (lower i a present before)
      cases below
    · exact same.symm
    · have above := self.symm.trans (upper i a present after)
      cases above
  simp [position?, ends, present]

/-- On an ascending list the search finds exactly the entry with the key. -/
theorem position?_eq_some_iff [Std.TransOrd κ] [Std.LawfulEqOrd κ] {key : α → κ} {wanted : κ}
    {entries : List α} (ascending : By key entries) {i : Nat} :
    position? key wanted entries = some i ↔ ∃ a, entries[i]? = some a ∧ key a = wanted := by
  constructor
  · exact getElem?_of_position?
  · rintro ⟨a, present, rfl⟩
    exact position?_of_getElem? ascending present

theorem isSome_position?_iff [Std.TransOrd κ] [Std.LawfulEqOrd κ] {key : α → κ} {wanted : κ}
    {entries : List α} (ascending : By key entries) :
    (position? key wanted entries).isSome ↔ ∃ a ∈ entries, key a = wanted := by
  rw [Option.isSome_iff_exists]
  simp only [position?_eq_some_iff ascending, List.mem_iff_getElem?]
  constructor
  · rintro ⟨i, a, present, same⟩
    exact ⟨a, ⟨i, present⟩, same⟩
  · rintro ⟨a, ⟨i, present⟩, same⟩
    exact ⟨i, a, present, same⟩

theorem upsert_append {key : α → κ} {combine : α → α → α} {entry : α} {before : List α}
    (below : ∀ a ∈ before, compare (key entry) (key a) = .gt) (rest : List α) :
    upsert key combine entry (before ++ rest) = before ++ upsert key combine entry rest := by
  induction before with
  | nil => rfl
  | cons a before ih =>
    obtain ⟨first, below⟩ := List.forall_mem_cons.mp below
    rw [List.cons_append, upsert, first, ih below, List.cons_append]

theorem upsert_of_above {key : α → κ} {combine : α → α → α} {entry : α} {entries : List α}
    (above : ∀ a ∈ entries, compare (key entry) (key a) = .lt) :
    upsert key combine entry entries = entry :: entries := by
  cases entries with
  | nil => rfl
  | cons a rest => rw [upsert, above a List.mem_cons_self]

/-- Between those below and those above its key, an entry is compared with the one that is left. -/
theorem upsert_between [Std.OrientedOrd κ] {key : α → κ} {combine : α → α → α} {entry old : α}
    {before after : List α} (below : ∀ a ∈ before, compare (key entry) (key a) = .gt)
    (above : ∀ a ∈ after, compare (key entry) (key a) = .lt) :
    upsert key combine entry (before ++ old :: after) = before ++
      match compare (key old) (key entry) with
      | .lt => old :: entry :: after
      | .eq => combine old entry :: after
      | .gt => entry :: old :: after := by
  have turned : compare (key entry) (key old) = (compare (key old) (key entry)).swap :=
    Std.OrientedCmp.eq_swap
  rw [upsert_append below, upsert, turned, upsert_of_above above]
  cases compare (key old) (key entry) <;> rfl

/-- In an ascending list the search ends at the place of the entry. -/
theorem put_eq_upsert [Std.TransOrd κ] {key : α → κ} {entries : List α} (ascending : By key entries)
    (combine : α → α → α) (entry : α) :
    put key combine entry entries = upsert key combine entry entries := by
  by_cases nonempty : entries = []
  · subst nonempty
    rfl
  · obtain ⟨inside, lower, upper⟩ := pivot_spec ascending (key entry) nonempty
    unfold put
    generalize pivot key (key entry) entries = base at inside lower upper
    have below : ∀ a ∈ entries.take base, compare (key entry) (key a) = .gt := by
      intro a member
      obtain ⟨j, before, rfl⟩ := List.mem_take_iff_getElem.mp member
      exact Std.OrientedCmp.gt_of_lt (lower j _ (List.getElem?_eq_getElem (by omega)) (by omega))
    have above : ∀ a ∈ entries.drop (base + 1), compare (key entry) (key a) = .lt := by
      intro a member
      obtain ⟨j, after, rfl⟩ := List.mem_drop_iff_getElem.mp member
      exact Std.OrientedCmp.lt_of_gt
        (upper (base + 1 + j) _ (List.getElem?_eq_getElem (by omega)) (by omega))
    have rest : entries.drop base = entries[base] :: entries.drop (base + 1) :=
      List.drop_eq_getElem_cons inside
    have divided : upsert key combine entry entries =
        upsert key combine entry (entries.take base ++ entries[base] :: entries.drop (base + 1)) := by
      rw [← rest, List.take_append_drop]
    rw [divided, upsert_between below above]
    simp only [List.getElem?_eq_getElem inside, rest, List.take_succ_eq_append_getElem inside,
      List.append_assoc, List.singleton_append]
    cases compare (key entries[base]) (key entry) <;> rfl

theorem foldl_put_eq [Std.TransOrd κ] [Std.LawfulEqOrd κ] {key : α → κ} {combine : α → α → α}
    (keeps : ∀ old entry, key (combine old entry) = key old) {entries : List α}
    (ascending : By key entries) (added : List α) :
    added.foldl (fun entries entry => put key combine entry entries) entries =
      added.foldl (fun entries entry => upsert key combine entry entries) entries := by
  induction added generalizing entries with
  | nil => rfl
  | cons entry rest ih =>
    rw [List.foldl_cons, put_eq_upsert ascending, List.foldl_cons]
    exact ih (by_upsert key combine keeps entry ascending)

end TreeShake.Ascending
