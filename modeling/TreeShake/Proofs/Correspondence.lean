import Mathlib.Data.List.Forall2
import TreeShake.Program.Basic

set_option autoImplicit false

/-!
Lists that correspond entry by entry, and programs whose units do. What is found in one of them
corresponds to what is found in the other.
-/

namespace TreeShake

section Lists

variable {α β : Type} {related : α → β → Prop} {first : List α} {second : List β}

theorem exists_of_forall₂ (paired : List.Forall₂ related first second) {a : α}
    (member : a ∈ first) : ∃ b ∈ second, related a b := by
  induction paired with
  | nil => exact absurd member List.not_mem_nil
  | cons head _ ih =>
    rcases List.mem_cons.mp member with rfl | member
    · exact ⟨_, List.mem_cons_self, head⟩
    · obtain ⟨b, later, pair⟩ := ih member
      exact ⟨b, List.mem_cons_of_mem _ later, pair⟩

theorem rel_getElem? (paired : List.Forall₂ related first second) (i : Nat) :
    Option.Rel related first[i]? second[i]? := by
  induction paired generalizing i with
  | nil => exact .none
  | cons head _ ih =>
    cases i with
    | zero => exact .some head
    | succ i => exact ih i

theorem rel_find? {wanted : α → Bool} {other : β → Bool}
    (same : ∀ a b, related a b → wanted a = other b) (paired : List.Forall₂ related first second) :
    Option.Rel (fun a b => wanted a = true ∧ related a b) (first.find? wanted)
      (second.find? other) := by
  induction paired with
  | nil => exact .none
  | @cons a b _ _ head _ ih =>
    rw [List.find?_cons, List.find?_cons, ← same a b head]
    cases found : wanted a with
    | true => exact .some ⟨found, head⟩
    | false => exact ih

theorem exists_of_rel {here : Option α} {there : Option β} (pair : Option.Rel related here there)
    {a : α} (found : here = some a) : ∃ b, there = some b ∧ related a b := by
  subst found
  cases pair with
  | some pair => exact ⟨_, rfl, pair⟩

end Lists

section Units

variable {related : UnitSummary → UnitSummary → Prop}
  (names : ∀ u v, related u v → u.name = v.name)
include names

/-- The units that count correspond as well. -/
theorem UnitSummary.forall₂_firsts {first second : List UnitSummary}
    (paired : List.Forall₂ related first second) :
    List.Forall₂ related (firsts first) (firsts second) := by
  induction paired with
  | nil => exact .nil
  | @cons u v _ _ head _ ih =>
    refine .cons head (List.rel_filter ?_ ih)
    intro later other pair
    simp [names u v head, names later other pair]

theorem Program.rel_find? {p q : Program} (units : List.Forall₂ related p.units q.units)
    (name : Name) :
    Option.Rel (fun u v => u.name = name ∧ related u v) (p.find? name) (q.find? name) := by
  rw [Program.find?, p.index_eq, Program.find?, q.index_eq]
  have same : ∀ u v, related u v → decide (u.name = name) = decide (v.name = name) := by
    intro u v pair
    rw [names u v pair]
  simpa using TreeShake.rel_find? same units

end Units

/-- What stands in a slot of two programs whose units correspond, corresponds as well. -/
theorem Program.exists_member? {p q : Program} {related : UnitSummary → UnitSummary → Prop}
    (paired : MemberRef → MemberSummary → MemberSummary → Prop)
    (names : ∀ u v, related u v → u.name = v.name)
    (members : ∀ u v, related u v → List.Forall₂ (fun m => paired ⟨u.name, m.selector⟩ m)
      u.members v.members)
    (units : List.Forall₂ related p.units q.units) {slot : Slot} {m : MemberSummary}
    (declared : p.member? slot = some m) :
    ∃ n, q.member? slot = some n ∧ paired ⟨slot.owner, m.selector⟩ m n := by
  obtain ⟨u, owner, inside⟩ := Option.bind_eq_some_iff.mp declared
  obtain ⟨v, other, named, pair⟩ := exists_of_rel (rel_find? names units slot.owner) owner
  obtain ⟨n, present, pair⟩ := exists_of_rel (rel_getElem? (members u v pair) slot.position) inside
  rw [named] at pair
  exact ⟨n, Option.bind_eq_some_iff.mpr ⟨v, other, present⟩, pair⟩

end TreeShake
