import TreeShake.Proofs.KeyedLists
import TreeShake.Unit.Summary

set_option autoImplicit false

/-!
Members that are added to a unit one by one. Those with one selector become one member, which says
what each of them says: it has the edges of all, it is abstract if all are, and exported if one is.
So nothing is lost when selectors collide, and nothing is invented.
-/

namespace TreeShake

namespace MemberSummary

/-- The member that the parts with its selector make up. -/
structure Joins (parts : List MemberSummary) (whole : MemberSummary) : Prop where
  part : ∃ part ∈ parts, part.selector = whole.selector
  isAbstract : whole.isAbstract = true ↔
    ∀ part ∈ parts, part.selector = whole.selector → part.isAbstract = true
  isExported : whole.isExported = true ↔
    ∃ part ∈ parts, part.selector = whole.selector ∧ part.isExported = true
  edges : ∀ edge, edge ∈ whole.dependencies ↔
    ∃ part ∈ parts, part.selector = whole.selector ∧ edge ∈ part.dependencies

variable {parts : List MemberSummary} {whole m : MemberSummary}

theorem joins_of_fresh (fresh : ∀ part ∈ parts, part.selector ≠ m.selector) :
    Joins (parts ++ [m]) m where
  part := ⟨m, by simp, rfl⟩
  isAbstract := by grind
  isExported := by grind
  edges edge := by grind

theorem Joins.other (joins : Joins parts whole) (other : whole.selector ≠ m.selector) :
    Joins (parts ++ [m]) whole where
  part := by
    obtain ⟨part, member, same⟩ := joins.part
    exact ⟨part, List.mem_append_left _ member, same⟩
  isAbstract := by
    rw [joins.isAbstract]
    grind
  isExported := by
    rw [joins.isExported]
    grind
  edges edge := by
    rw [joins.edges]
    grind

theorem Joins.merge (joins : Joins parts whole) (same : whole.selector = m.selector) :
    Joins (parts ++ [m]) (whole.merge m) where
  part := ⟨m, by simp, same.symm⟩
  isAbstract := by
    simp only [MemberSummary.merge, Bool.and_eq_true, joins.isAbstract]
    grind
  isExported := by
    simp only [MemberSummary.merge, Bool.or_eq_true, joins.isExported]
    grind
  edges edge := by
    simp only [MemberSummary.merge, Dependencies.mem_union, joins.edges]
    grind

end MemberSummary

namespace UnitSummary

/-- The members of a unit are what the parts make up, with one member for each selector. -/
structure Composed (parts members : List MemberSummary) : Prop where
  ascending : Ascending.By MemberSummary.selector members
  joins : ∀ whole ∈ members, MemberSummary.Joins parts whole
  complete : ∀ part ∈ parts, part.selector ∈ members.map MemberSummary.selector

theorem composed_nil : Composed [] [] := ⟨.nil, nofun, nofun⟩

variable {parts members : List MemberSummary}

theorem Composed.addMember (composed : Composed parts members) (m : MemberSummary) :
    Composed (parts ++ [m]) (addMember members m) where
  ascending := Ascending.by_upsert MemberSummary.selector MemberSummary.merge (fun _ _ => rfl) m
    composed.ascending
  joins := by
    intro whole member
    rcases (Ascending.mem_upsert_iff composed.ascending).mp member with
      ⟨kept, other⟩ | ⟨old, kept, same, rfl⟩ | ⟨fresh, rfl⟩
    · exact (composed.joins whole kept).other other
    · exact (composed.joins old kept).merge same
    · apply MemberSummary.joins_of_fresh
      intro part held same
      exact fresh (same ▸ composed.complete part held)
  complete := by
    intro part member
    apply (Ascending.mem_keys_upsert _ MemberSummary.merge (fun _ _ => rfl) m members _).mpr
    rcases List.mem_append.mp member with member | last
    · exact .inr (composed.complete part member)
    · rw [List.mem_singleton.mp last]
      exact .inl rfl

theorem Composed.foldl_addMember (composed : Composed parts members) (added : List MemberSummary) :
    Composed (parts ++ added) (added.foldl UnitSummary.addMember members) := by
  induction added generalizing parts members with
  | nil => rwa [List.append_nil]
  | cons m rest ih =>
    rw [List.foldl_cons, List.append_cons]
    exact ih (composed.addMember m)

end UnitSummary

end TreeShake
