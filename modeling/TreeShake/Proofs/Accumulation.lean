import TreeShake.Proofs.Absorption
import TreeShake.Proofs.Merging

set_option autoImplicit false

/-!
Putting versions together is a union. A record is the set of its edges, a member is the set of its
traits, and the members of a unit have the traits that the members of both versions have. So what was
put together does not depend on the order or the grouping, nor on how often a version was taken.

These are equations of lists. They hold because whatever is put together is in canonical form, and
what is in canonical form is determined by its edges and traits.
-/

namespace TreeShake

namespace Dependencies

theorem union_comm (a b : Dependencies) : a.union b = b.union a := by
  apply (canonical_union a b).eq_of_mem_iff (canonical_union b a)
  intro edge
  rw [mem_union, mem_union]
  exact or_comm

theorem union_assoc (a b c : Dependencies) : (a.union b).union c = a.union (b.union c) := by
  apply (canonical_union _ c).eq_of_mem_iff (canonical_union a _)
  intro edge
  simp only [mem_union]
  exact or_assoc

/-- The union with itself puts a record in canonical form, as the union with nothing does. -/
theorem union_self (d : Dependencies) : d.union d = d.union {} := by
  apply (canonical_union d d).eq_of_mem_iff (canonical_union d {})
  intro edge
  simp only [mem_union, mem_empty, or_false, or_self]

end Dependencies

namespace MemberSummary

theorem merge_comm {m n : MemberSummary} (same : m.selector = n.selector) :
    m.merge n = n.merge m := by
  rw [merge, merge, same, Bool.and_comm, Bool.or_comm, Dependencies.union_comm]

theorem merge_assoc (l m n : MemberSummary) : (l.merge m).merge n = l.merge (m.merge n) := by
  simp only [merge, Bool.and_assoc, Bool.or_assoc, Dependencies.union_assoc]

end MemberSummary

/-- Records are a semilattice under union once they are canonical, and whatever a union gives is. The
same holds of the declarations of one member under merging. -/
theorem semilattice_union_merge :
    (∀ a b c : Dependencies,
      (∀ edge, edge ∈ a.union b ↔ edge ∈ a ∨ edge ∈ b) ∧
      a.union b = b.union a ∧
      (a.union b).union c = a.union (b.union c) ∧
      a.union a = a.union {} ∧
      (a.Canonical → a.union {} = a)) ∧
    ∀ l m n : MemberSummary, l.selector = m.selector → m.selector = n.selector →
      l.merge m = m.merge l ∧
      (l.merge m).merge n = l.merge (m.merge n) ∧
      (l.dependencies.Canonical → l.merge l = l) := by
  constructor
  · intro a b c
    refine ⟨fun _ => Dependencies.mem_union, Dependencies.union_comm a b,
      Dependencies.union_assoc a b c, Dependencies.union_self a, fun canonical => ?_⟩
    rw [← Dependencies.union_self, canonical.union_self]
  · intro l m n first second
    exact ⟨MemberSummary.merge_comm first, MemberSummary.merge_assoc l m n,
      MemberSummary.merge_self⟩

/-- An unsorted record that repeats itself and has an empty group. -/
def scattered : Dependencies where
  reads := [(⟨21⟩, [⟨31⟩, ⟨30⟩]), (⟨20⟩, []), (⟨21⟩, [⟨30⟩])]
  instantiated := [⟨22⟩, ⟨20⟩, ⟨22⟩]

theorem semilattice_scattered :
    let gathered : Dependencies :=
      { reads := [(⟨21⟩, [⟨30⟩, ⟨31⟩])], instantiated := [⟨20⟩, ⟨22⟩] }
    let m : MemberSummary := { selector := .method ⟨40⟩, dependencies := gathered }
    let n : MemberSummary := { selector := .method ⟨40⟩, isAbstract := true, isExported := true,
                               dependencies := scattered }
    scattered.union {} = gathered ∧ scattered.union scattered = scattered.union {} ∧
      gathered.Canonical ∧ gathered.union {} = gathered ∧
      m.merge n = n.merge m ∧ (m.merge n).merge n = m.merge (n.merge n) ∧ m.merge m = m := by
  intro gathered m n
  have canonical : gathered.Canonical := by decide
  obtain ⟨records, members⟩ := semilattice_union_merge
  obtain ⟨_, _, _, self, _⟩ := records scattered {} {}
  obtain ⟨_, _, _, _, unchanged⟩ := records gathered {} {}
  obtain ⟨comm, assoc, again⟩ := members m n n rfl rfl
  exact ⟨by decide, self, canonical, unchanged canonical, comm, assoc, again canonical⟩

/-- What can be said of a member apart from its selector. -/
inductive Trait where
  | declared
  | concrete
  | exported
  | depends (edge : Edge)

namespace MemberSummary

def HasTrait (m : MemberSummary) : Trait → Prop
  | .declared => True
  | .concrete => m.isAbstract = false
  | .exported => m.isExported = true
  | .depends edge => edge ∈ m.dependencies

/-- Some of the members with the selector have the trait. -/
def HaveTrait (members : List MemberSummary) (selector : Selector) (trait : Trait) : Prop :=
  ∃ m ∈ members, m.selector = selector ∧ m.HasTrait trait

/-- A member in canonical form is determined by its traits. -/
theorem eq_of_hasTrait {m n : MemberSummary} (selector : m.selector = n.selector)
    (canonical : m.dependencies.Canonical) (other : n.dependencies.Canonical)
    (same : ∀ trait, m.HasTrait trait ↔ n.HasTrait trait) : m = n := by
  have isAbstract : m.isAbstract = n.isAbstract := by
    rw [Bool.eq_iff_iff, ← not_iff_not, Bool.not_eq_true, Bool.not_eq_true]
    exact same .concrete
  have isExported : m.isExported = n.isExported := by
    rw [Bool.eq_iff_iff]
    exact same .exported
  have dependencies : m.dependencies = n.dependencies := by
    apply canonical.eq_of_mem_iff other
    exact fun edge => same (.depends edge)
  cases m
  cases n
  simp_all

theorem haveTrait_append {first second : List MemberSummary} {selector : Selector} {trait : Trait} :
    HaveTrait (first ++ second) selector trait ↔
      HaveTrait first selector trait ∨ HaveTrait second selector trait := by
  simp only [HaveTrait, List.mem_append, or_and_right, exists_or]

theorem haveTrait_declared {members : List MemberSummary} {selector : Selector} :
    HaveTrait members selector .declared ↔ selector ∈ members.map MemberSummary.selector := by
  simp [HaveTrait, HasTrait]

/-- What is joined has the traits of its parts. -/
theorem Joins.hasTrait_iff {parts : List MemberSummary} {whole : MemberSummary}
    (joins : Joins parts whole) {trait : Trait} :
    whole.HasTrait trait ↔ HaveTrait parts whole.selector trait := by
  cases trait with
  | declared =>
    rw [haveTrait_declared, List.mem_map]
    exact iff_of_true trivial joins.part
  | concrete =>
    have abstract := not_congr joins.isAbstract
    simpa [HaveTrait, HasTrait] using abstract
  | exported => exact joins.isExported
  | depends edge => exact joins.edges edge

end MemberSummary

namespace UnitSummary

open MemberSummary

section Members

variable {members others parts : List MemberSummary}

theorem haveTrait_iff_of_mem (ascending : Ascending.By MemberSummary.selector members)
    {m : MemberSummary} (member : m ∈ members) {trait : Trait} :
    HaveTrait members m.selector trait ↔ m.HasTrait trait := by
  constructor
  · rintro ⟨n, inside, same, has⟩
    rwa [← Ascending.eq_of_key_eq ascending inside member same]
  · exact fun has => ⟨m, member, rfl, has⟩

theorem mem_of_haveTrait (ascending : Ascending.By MemberSummary.selector members)
    (other : Ascending.By MemberSummary.selector others)
    (canonical : ∀ m ∈ members, m.dependencies.Canonical)
    (otherCanonical : ∀ m ∈ others, m.dependencies.Canonical)
    (same : ∀ selector trait, HaveTrait members selector trait ↔ HaveTrait others selector trait)
    {m : MemberSummary} (member : m ∈ members) : m ∈ others := by
  have declared := (same m.selector .declared).mp ⟨m, member, rfl, trivial⟩
  obtain ⟨n, inside, selector, _⟩ := declared
  have equal : m = n := by
    apply eq_of_hasTrait selector.symm (canonical m member) (otherCanonical n inside)
    intro trait
    rw [← haveTrait_iff_of_mem ascending member, ← haveTrait_iff_of_mem other inside, same, selector]
  rwa [equal]

/-- Members in canonical form are determined by their traits. -/
theorem eq_of_haveTrait (ascending : Ascending.By MemberSummary.selector members)
    (other : Ascending.By MemberSummary.selector others)
    (canonical : ∀ m ∈ members, m.dependencies.Canonical)
    (otherCanonical : ∀ m ∈ others, m.dependencies.Canonical)
    (same : ∀ selector trait, HaveTrait members selector trait ↔ HaveTrait others selector trait) :
    members = others := by
  apply Ascending.eq_of_mem_iff ascending other
  intro m
  constructor
  · exact mem_of_haveTrait ascending other canonical otherCanonical same
  · exact mem_of_haveTrait other ascending otherCanonical canonical fun s t => (same s t).symm

theorem composed_self (ascending : Ascending.By MemberSummary.selector members) :
    Composed members members where
  ascending := ascending
  joins := by
    intro whole member
    have unique : ∀ part ∈ members, part.selector = whole.selector → part = whole :=
      fun part inside same => Ascending.eq_of_key_eq ascending inside member same
    exact ⟨⟨whole, member, rfl⟩, by grind, by grind, fun edge => by grind⟩
  complete part member := List.mem_map_of_mem member

theorem Composed.haveTrait_iff (composed : Composed parts members) {selector : Selector}
    {trait : Trait} : HaveTrait members selector trait ↔ HaveTrait parts selector trait := by
  constructor
  · rintro ⟨m, member, rfl, has⟩
    exact (composed.joins m member).hasTrait_iff.mp has
  · rintro ⟨part, member, rfl, has⟩
    obtain ⟨whole, inside, same⟩ := List.mem_map.mp (composed.complete part member)
    refine ⟨whole, inside, same, (composed.joins whole inside).hasTrait_iff.mpr ?_⟩
    exact ⟨part, member, same.symm, has⟩

end Members

/-- The unit is the newer version, with the members and the field classes of both. Members with the
same selector are one member, which says what all of them say. -/
structure Absorbs (older newer whole : UnitSummary) : Prop where
  ascending : Ascending.By MemberSummary.selector whole.members
  selectors : ∀ selector, selector ∈ whole.members.map MemberSummary.selector ↔
    selector ∈ older.members.map MemberSummary.selector ∨
      selector ∈ newer.members.map MemberSummary.selector
  joins : ∀ m ∈ whole.members, Joins (older.members ++ newer.members) m
  fieldClasses : Ascending.By id whole.fieldClasses
  mem_fieldClasses : ∀ cls, cls ∈ whole.fieldClasses ↔
    cls ∈ older.fieldClasses ∨ cls ∈ newer.fieldClasses
  place : { whole with members := newer.members, fieldClasses := newer.fieldClasses } = newer

variable {a b c : UnitSummary}

theorem mem_fieldClasses_absorb {cls : Name} :
    cls ∈ (a.absorb b).fieldClasses ↔ cls ∈ a.fieldClasses ∨ cls ∈ b.fieldClasses := by
  rw [absorb, Ascending.mem_ofList, List.mem_append]

theorem composed_absorb (ascending : Ascending.By MemberSummary.selector a.members)
    (b : UnitSummary) : Composed (a.members ++ b.members) (a.absorb b).members := by
  rw [members_absorb ascending]
  exact (composed_self ascending).foldl_addMember b.members

theorem haveTrait_absorb (ascending : Ascending.By MemberSummary.selector a.members)
    {selector : Selector} {trait : Trait} :
    HaveTrait (a.absorb b).members selector trait ↔
      HaveTrait a.members selector trait ∨ HaveTrait b.members selector trait := by
  rw [(composed_absorb ascending b).haveTrait_iff, haveTrait_append]

theorem absorbs_absorb (ascending : Ascending.By MemberSummary.selector a.members)
    (b : UnitSummary) : a.Absorbs b (a.absorb b) where
  ascending := (composed_absorb ascending b).ascending
  selectors selector := by
    simp only [← haveTrait_declared]
    exact haveTrait_absorb ascending
  joins := (composed_absorb ascending b).joins
  fieldClasses := Ascending.by_ofList _
  mem_fieldClasses _ := mem_fieldClasses_absorb
  place := rfl

namespace Canonical

theorem absorb (first : a.Canonical) (second : b.Canonical) : (a.absorb b).Canonical where
  members := (composed_absorb first.members b).ascending
  dependencies := by
    rw [UnitSummary.members_absorb first.members]
    exact canonical_foldl_addMember first.dependencies second.dependencies
  fieldClasses := Ascending.by_ofList _

/-- Units in canonical form with the same traits and field classes differ in their place at most. -/
theorem contents_eq (first : a.Canonical) (second : b.Canonical)
    (traits : ∀ selector trait,
      HaveTrait a.members selector trait ↔ HaveTrait b.members selector trait)
    (classes : ∀ cls, cls ∈ a.fieldClasses ↔ cls ∈ b.fieldClasses) :
    a.members = b.members ∧ a.fieldClasses = b.fieldClasses := by
  constructor
  · apply eq_of_haveTrait first.members second.members first.dependencies second.dependencies
    exact traits
  · exact Ascending.eq_of_mem_iff first.fieldClasses second.fieldClasses classes

theorem absorb_assoc (first : a.Canonical) (second : b.Canonical) (third : c.Canonical) :
    (a.absorb b).absorb c = a.absorb (b.absorb c) := by
  have contents : ((a.absorb b).absorb c).members = (a.absorb (b.absorb c)).members ∧
      ((a.absorb b).absorb c).fieldClasses = (a.absorb (b.absorb c)).fieldClasses := by
    apply ((first.absorb second).absorb third).contents_eq (first.absorb (second.absorb third))
    · intro selector trait
      rw [haveTrait_absorb (first.absorb second).members, haveTrait_absorb first.members,
        haveTrait_absorb first.members, haveTrait_absorb second.members]
      exact or_assoc
    · intro cls
      simp only [mem_fieldClasses_absorb]
      exact or_assoc
  -- Both sides have the place of the third version.
  calc (a.absorb b).absorb c
    _ = { c with
          members := ((a.absorb b).absorb c).members
          fieldClasses := ((a.absorb b).absorb c).fieldClasses } := rfl
    _ = { c with
          members := (a.absorb (b.absorb c)).members
          fieldClasses := (a.absorb (b.absorb c)).fieldClasses } := by
      rw [contents.1, contents.2]
    _ = a.absorb (b.absorb c) := rfl

/-- A version that was absorbed already adds nothing. -/
theorem absorb_again (first : a.Canonical) (second : b.Canonical) :
    ((a.absorb b).absorb a).members = (a.absorb b).members ∧
      ((a.absorb b).absorb a).fieldClasses = (a.absorb b).fieldClasses := by
  have both := first.absorb second
  apply (both.absorb first).contents_eq both
  · intro selector trait
    rw [haveTrait_absorb both.members, haveTrait_absorb first.members, or_right_comm, or_self]
  · intro cls
    rw [mem_fieldClasses_absorb, mem_fieldClasses_absorb, or_right_comm, or_self]

end Canonical

end UnitSummary

/-- A unit that absorbs a newer version has all that the two have, each member in its place, whatever
the order of the newer members and however often they repeat. On canonical units this is associative
and idempotent, and what was absorbed once adds nothing. -/
theorem absorb_keeps_both :
    (∀ older newer : UnitSummary, Ascending.By MemberSummary.selector older.members →
      older.Absorbs newer (older.absorb newer)) ∧
    (∀ a b c : UnitSummary, a.Canonical → b.Canonical → c.Canonical →
      (a.absorb b).absorb c = a.absorb (b.absorb c)) ∧
    (∀ a : UnitSummary, a.Canonical → a.absorb a = a) ∧
    ∀ a b : UnitSummary, a.Canonical → b.Canonical →
      ((a.absorb b).absorb a).members = (a.absorb b).members ∧
        ((a.absorb b).absorb a).fieldClasses = (a.absorb b).fieldClasses := by
  refine ⟨fun older newer ascending => ?_, fun a b c first second third => ?_,
    fun a canonical => ?_, fun a b first second => ?_⟩
  · exact UnitSummary.absorbs_absorb ascending newer
  · exact first.absorb_assoc second third
  · exact canonical.absorb_self
  · exact first.absorb_again second

/-- A unit with an abstract method, in canonical form. -/
def draft : UnitSummary where
  name := ⟨20⟩
  kind := .plainClass
  superclass := some ⟨40⟩
  fieldClasses := [⟨50⟩]
  members := [{ selector := .method ⟨30⟩, isAbstract := true,
                dependencies := { mentioned := [⟨52⟩] } },
              { selector := .method ⟨32⟩ }]

/-- Another version of it, with members in disorder and a method that is declared twice. -/
def revision : UnitSummary where
  name := ⟨20⟩
  kind := .plainClass
  superclass := some ⟨41⟩
  fieldClasses := [⟨51⟩, ⟨50⟩, ⟨51⟩]
  members := [{ selector := .method ⟨31⟩, isExported := true,
                dependencies := { calls := [(⟨53⟩, [⟨30⟩])] } },
              { selector := .method ⟨30⟩, dependencies := { mentioned := [⟨51⟩] } },
              { selector := .method ⟨31⟩, isAbstract := true }]
  isExported := true

theorem absorb_draft_revision :
    let joined : UnitSummary := { revision with
      fieldClasses := [⟨50⟩, ⟨51⟩]
      members := [{ selector := .method ⟨30⟩, dependencies := { mentioned := [⟨51⟩, ⟨52⟩] } },
                  { selector := .method ⟨31⟩, isExported := true,
                    dependencies := { calls := [(⟨53⟩, [⟨30⟩])] } },
                  { selector := .method ⟨32⟩ }] }
    draft.absorb revision = joined ∧ draft.Absorbs revision joined ∧
      draft.Canonical ∧ joined.Canonical ∧
      (draft.absorb joined).absorb draft = draft.absorb (joined.absorb draft) ∧
      joined.absorb joined = joined ∧
      ((draft.absorb joined).absorb draft).members = (draft.absorb joined).members := by
  intro joined
  have absorbed : draft.absorb revision = joined := by decide
  have first : draft.Canonical := by decide
  have second : joined.Canonical := by decide
  obtain ⟨keeps, assoc, self, again⟩ := absorb_keeps_both
  exact ⟨absorbed, absorbed ▸ keeps draft revision first.members, first, second,
    assoc draft joined draft first second first, self joined second,
    (again draft joined first second).1⟩

end TreeShake
