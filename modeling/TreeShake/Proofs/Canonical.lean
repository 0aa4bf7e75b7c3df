import TreeShake.Proofs.KeyedLists
import TreeShake.Proofs.Saturation

set_option autoImplicit false

/-!
The canonical form of dependency records: all lists strictly ascending, and no empty groups. A record
that was built edge by edge has this form, and a record in this form is determined by its edges. So
the union of a canonical record with itself is the record, and what it demands follows from its edges
alone.
-/

namespace TreeShake

namespace Groups

variable {β : Type} [Ord β]

structure Canonical (groups : Groups β) : Prop where
  owners : Ascending.By Prod.fst groups
  filled : ∀ group ∈ groups, group.2 ≠ []
  values : ∀ group ∈ groups, Ascending.By id group.2

instance [DecidableEq β] (groups : Groups β) : Decidable (Canonical groups) :=
  decidable_of_iff
    (Ascending.By Prod.fst groups ∧ (∀ group ∈ groups, group.2 ≠ []) ∧
      ∀ group ∈ groups, Ascending.By id group.2)
    ⟨fun held => ⟨held.1, held.2.1, held.2.2⟩,
      fun canonical => ⟨canonical.owners, canonical.filled, canonical.values⟩⟩

theorem mem_pairs {β : Type} {groups : Groups β} {owner : Name} {value : β} :
    (owner, value) ∈ pairs groups ↔ ∃ values, (owner, values) ∈ groups ∧ value ∈ values := by
  simp [pairs]

theorem canonical_nil : Canonical ([] : Groups β) := ⟨.nil, nofun, nofun⟩

theorem Canonical.insert [Std.TransOrd β] [Std.LawfulEqOrd β] {groups : Groups β}
    (canonical : Canonical groups) (owner : Name) (value : β) :
    Canonical (insert owner value groups) where
  owners := by
    apply Ascending.by_upsert
    · exact fun _ _ => rfl
    · exact canonical.owners
  filled := by
    refine Ascending.forall_mem_upsert (List.cons_ne_nil _ _) canonical.filled fun old _ => ?_
    exact List.ne_nil_of_mem (Ascending.mem_insertAll.mpr (.inr (List.mem_singleton_self value)))
  values := Ascending.forall_mem_upsert (List.pairwise_singleton _ _) canonical.values
    fun old member => Ascending.by_insertAll _ (canonical.values old member)

theorem Canonical.mem_iff [Std.TransOrd β] {groups : Groups β} (canonical : Canonical groups)
    {owner : Name} {values : List β} :
    (owner, values) ∈ groups ↔ values ≠ [] ∧ Ascending.By id values ∧
      ∀ value, value ∈ values ↔ (owner, value) ∈ pairs groups := by
  have complete : ∀ values, (owner, values) ∈ groups →
      ∀ value, value ∈ values ↔ (owner, value) ∈ pairs groups := by
    intro values member value
    constructor
    · exact fun inside => mem_pairs.mpr ⟨values, member, inside⟩
    · intro pair
      obtain ⟨others, other, inside⟩ := mem_pairs.mp pair
      have same := Ascending.eq_of_key_eq canonical.owners member other rfl
      rwa [(Prod.mk.inj same).2]
  constructor
  · intro member
    exact ⟨canonical.filled _ member, canonical.values _ member, complete values member⟩
  · rintro ⟨filled, ascending, same⟩
    obtain ⟨value, inside⟩ := List.exists_mem_of_ne_nil _ filled
    obtain ⟨others, member, _⟩ := mem_pairs.mp ((same value).mp inside)
    have equal : values = others := Ascending.eq_of_mem_iff ascending (canonical.values _ member)
      fun value => (same value).trans (complete others member value).symm
    rwa [equal]

/-- Canonical groups are determined by their pairs. -/
theorem Canonical.eq_of_pairs [Std.TransOrd β] {first second : Groups β}
    (canonical : Canonical first) (other : Canonical second)
    (same : ∀ owner value, (owner, value) ∈ pairs first ↔ (owner, value) ∈ pairs second) :
    first = second := by
  apply Ascending.eq_of_mem_iff canonical.owners other.owners
  rintro ⟨owner, values⟩
  simp only [canonical.mem_iff, other.mem_iff, same]

theorem Canonical.exists_mem_pairs {groups : Groups β} (canonical : Canonical groups) {owner : Name}
    (member : owner ∈ groups.map Prod.fst) : ∃ value, (owner, value) ∈ pairs groups := by
  obtain ⟨⟨owner, values⟩, inside, rfl⟩ := List.mem_map.mp member
  obtain ⟨value, held⟩ := List.exists_mem_of_ne_nil _ (canonical.filled _ inside)
  exact ⟨value, mem_pairs.mpr ⟨values, inside, held⟩⟩

end Groups

namespace Dependencies

structure Canonical (d : Dependencies) : Prop where
  reads : Groups.Canonical d.reads
  writes : Groups.Canonical d.writes
  calls : Groups.Canonical d.calls
  exactCalls : Groups.Canonical d.exactCalls
  instantiated : Ascending.By id d.instantiated
  modules : Ascending.By id d.modules
  tested : Ascending.By id d.tested
  classData : Ascending.By id d.classData
  mentioned : Ascending.By id d.mentioned
  hostGlobals : Ascending.By id d.hostGlobals

instance (d : Dependencies) : Decidable d.Canonical :=
  decidable_of_iff
    ((Groups.Canonical d.reads ∧ Groups.Canonical d.writes ∧ Groups.Canonical d.calls ∧
        Groups.Canonical d.exactCalls) ∧
      ∀ names ∈ [d.instantiated, d.modules, d.tested, d.classData, d.mentioned, d.hostGlobals],
        Ascending.By id names) <| by
    constructor
    · rintro ⟨⟨reads, writes, calls, exactCalls⟩, names⟩
      simp only [List.forall_mem_cons] at names
      obtain ⟨instantiated, modules, tested, classData, mentioned, hostGlobals, _⟩ := names
      exact ⟨reads, writes, calls, exactCalls, instantiated, modules, tested, classData, mentioned,
        hostGlobals⟩
    · intro canonical
      refine ⟨⟨canonical.reads, canonical.writes, canonical.calls, canonical.exactCalls⟩, ?_⟩
      simp [canonical.instantiated, canonical.modules, canonical.tested, canonical.classData,
        canonical.mentioned, canonical.hostGlobals]

theorem canonical_empty : Canonical {} where
  reads := Groups.canonical_nil
  writes := Groups.canonical_nil
  calls := Groups.canonical_nil
  exactCalls := Groups.canonical_nil
  instantiated := .nil
  modules := .nil
  tested := .nil
  classData := .nil
  mentioned := .nil
  hostGlobals := .nil

theorem Canonical.insert {d : Dependencies} (canonical : d.Canonical) (edge : Edge) :
    (d.insert edge).Canonical := by
  cases edge with
  | readField owner field => exact { canonical with reads := canonical.reads.insert owner field }
  | writeField owner field => exact { canonical with writes := canonical.writes.insert owner field }
  | call receiver method =>
    exact { canonical with calls := canonical.calls.insert receiver method }
  | callExact owner target =>
    exact { canonical with exactCalls := canonical.exactCalls.insert owner target }
  | instantiate cls =>
    exact { canonical with instantiated := Ascending.by_insert cls canonical.instantiated }
  | loadModule cls => exact { canonical with modules := Ascending.by_insert cls canonical.modules }
  | testInstance cls => exact { canonical with tested := Ascending.by_insert cls canonical.tested }
  | classData cls =>
    exact { canonical with classData := Ascending.by_insert cls canonical.classData }
  | mention cls =>
    exact { canonical with mentioned := Ascending.by_insert cls canonical.mentioned }
  | hostGlobal name =>
    exact { canonical with hostGlobals := Ascending.by_insert name canonical.hostGlobals }

theorem Canonical.insertAll {d : Dependencies} (canonical : d.Canonical) (edges : List Edge) :
    (d.insertAll edges).Canonical := by
  induction edges generalizing d with
  | nil => exact canonical
  | cons edge rest ih => exact ih (canonical.insert edge)

theorem canonical_ofEdges (edges : List Edge) : (ofEdges edges).Canonical :=
  canonical_empty.insertAll edges

theorem canonical_union (first second : Dependencies) : (first.union second).Canonical :=
  canonical_ofEdges _

/-- A canonical record is determined by its edges. -/
theorem Canonical.eq_of_mem_iff {first second : Dependencies} (canonical : first.Canonical)
    (other : second.Canonical) (same : ∀ edge, edge ∈ first ↔ edge ∈ second) : first = second := by
  cases first
  cases second
  rw [mk.injEq]
  refine ⟨?_, ?_, ?_, ?_, ?_, ?_, ?_, ?_, ?_, ?_⟩
  · exact canonical.reads.eq_of_pairs other.reads fun owner field => same (.readField owner field)
  · exact canonical.writes.eq_of_pairs other.writes fun owner field => same (.writeField owner field)
  · exact canonical.calls.eq_of_pairs other.calls fun receiver method => same (.call receiver method)
  · exact canonical.exactCalls.eq_of_pairs other.exactCalls fun owner target =>
      same (.callExact owner target)
  · exact Ascending.eq_of_mem_iff canonical.instantiated other.instantiated fun cls =>
      same (.instantiate cls)
  · exact Ascending.eq_of_mem_iff canonical.modules other.modules fun cls => same (.loadModule cls)
  · exact Ascending.eq_of_mem_iff canonical.tested other.tested fun cls => same (.testInstance cls)
  · exact Ascending.eq_of_mem_iff canonical.classData other.classData fun cls =>
      same (.classData cls)
  · exact Ascending.eq_of_mem_iff canonical.mentioned other.mentioned fun cls => same (.mention cls)
  · exact Ascending.eq_of_mem_iff canonical.hostGlobals other.hostGlobals fun name =>
      same (.hostGlobal name)

theorem Canonical.union_self {d : Dependencies} (canonical : d.Canonical) : d.union d = d :=
  (canonical_union d d).eq_of_mem_iff canonical fun edge => by rw [mem_union, or_self]

theorem unit_mem_demands {d : Dependencies} {owner : Name} :
    .unit owner ∈ d.demands ↔ owner ∈ d.calls.map Prod.fst ∨ owner ∈ d.exactCalls.map Prod.fst := by
  simp [demands, groupDemands, eq_comm]

/-- All demands of a canonical record come from its edges. -/
theorem Canonical.demands_subset {d other : Dependencies} (canonical : d.Canonical)
    (edges : ∀ edge ∈ d, edge ∈ other) : d.demands ⊆ other.demands := by
  intro demand member
  cases demand with
  | edge edge => exact edge_mem_demands.mpr (edges edge (edge_mem_demands.mp member))
  | code owner =>
    apply code_mem_demands.mpr
    rcases code_mem_demands.mp member with read | written
    · obtain ⟨field, pair⟩ := canonical.reads.exists_mem_pairs read
      exact .inl (mem_heads (edges (.readField owner field) pair))
    · obtain ⟨field, pair⟩ := canonical.writes.exists_mem_pairs written
      exact .inr (mem_heads (edges (.writeField owner field) pair))
  | unit owner =>
    apply unit_mem_demands.mpr
    rcases unit_mem_demands.mp member with called | calledExactly
    · obtain ⟨method, pair⟩ := canonical.calls.exists_mem_pairs called
      exact .inl (mem_heads (edges (.call owner method) pair))
    · obtain ⟨target, pair⟩ := canonical.exactCalls.exists_mem_pairs calledExactly
      exact .inr (mem_heads (edges (.callExact owner target) pair))

end Dependencies

end TreeShake
