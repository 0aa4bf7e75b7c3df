import TreeShake.Proofs.Canonical
import TreeShake.Proofs.Extraction
import TreeShake.Proofs.Monotonicity

set_option autoImplicit false

/-!
What becomes of a unit when it absorbs a changed version of itself. Summaries of definitions are in a
canonical form, in which a unit that absorbs itself does not change. A version that only has other
bodies changes nothing of the shape, and the unit keeps all that its members depend on.
-/

namespace TreeShake

theorem MemberSummary.merge_self {m : MemberSummary} (canonical : m.dependencies.Canonical) :
    m.merge m = m := by
  rw [merge, Bool.and_self, Bool.or_self, canonical.union_self]

/-- A member loses nothing when another version of its declaration is merged into it. -/
theorem MemberSummary.below_merge {m n : MemberSummary} (canonical : m.dependencies.Canonical)
    (same : m.declaration = n.declaration) : m.Below (m.merge n) where
  declaration := by
    have isAbstract : m.isAbstract = n.isAbstract := (congrArg MemberSummary.isAbstract same :)
    rw [declaration, declaration, merge, ← isAbstract, Bool.and_self]
  isExported exported := by rw [merge, exported, Bool.true_or]
  demands := canonical.demands_subset (covers_merge_left m n).edges

theorem MemberSummary.forall₂_below_merge {older newer : List MemberSummary}
    (canonical : ∀ m ∈ older, m.dependencies.Canonical)
    (same : older.map declaration = newer.map declaration) :
    List.Forall₂ MemberSummary.Below older (List.zipWith merge older newer) := by
  induction older generalizing newer with
  | nil => exact .nil
  | cons m rest ih =>
    obtain ⟨n, later, rfl, first, same⟩ := List.map_eq_cons_iff.mp same.symm
    obtain ⟨head, canonical⟩ := List.forall_mem_cons.mp canonical
    exact .cons (below_merge head first.symm) (ih canonical same.symm)

namespace UnitSummary

structure Canonical (u : UnitSummary) : Prop where
  members : Ascending.By MemberSummary.selector u.members
  dependencies : ∀ m ∈ u.members, m.dependencies.Canonical
  fieldClasses : Ascending.By id u.fieldClasses

instance (u : UnitSummary) : Decidable u.Canonical :=
  decidable_of_iff
    (Ascending.By MemberSummary.selector u.members ∧
      (∀ m ∈ u.members, m.dependencies.Canonical) ∧ Ascending.By id u.fieldClasses)
    ⟨fun held => ⟨held.1, held.2.1, held.2.2⟩,
      fun canonical => ⟨canonical.members, canonical.dependencies, canonical.fieldClasses⟩⟩

section Absorb

variable {older newer : UnitSummary} (canonical : older.Canonical)
include canonical

/-- Versions with the same members are merged member by member. -/
theorem Canonical.members_absorb
    (same : older.members.map MemberSummary.selector = newer.members.map MemberSummary.selector) :
    (older.absorb newer).members =
      List.zipWith MemberSummary.merge older.members newer.members := by
  rw [UnitSummary.members_absorb canonical.members]
  apply Ascending.foldl_upsert_eq_zipWith
  · exact fun _ _ => rfl
  · exact canonical.members
  · exact same

theorem Canonical.absorb_self : older.absorb older = older := by
  have members : (older.absorb older).members = older.members := by
    have merged : ∀ m ∈ older.members, m.merge m = id m :=
      fun m member => MemberSummary.merge_self (canonical.dependencies m member)
    rw [canonical.members_absorb rfl, List.zipWith_self, List.map_congr_left merged, List.map_id]
  have fieldClasses : (older.absorb older).fieldClasses = older.fieldClasses := by
    apply Ascending.eq_of_mem_iff (Ascending.by_ofList _) canonical.fieldClasses
    intro name
    rw [Ascending.mem_ofList, List.mem_append, or_self]
  calc older.absorb older
    _ = { older with
          members := (older.absorb older).members
          fieldClasses := (older.absorb older).fieldClasses } := rfl
    _ = older := by rw [members, fieldClasses]

section Shape

variable (shape : older.shape = newer.shape)
include shape

theorem Canonical.forall₂_below_absorb :
    List.Forall₂ MemberSummary.Below older.members (older.absorb newer).members := by
  have declared : older.members.map MemberSummary.declaration =
      newer.members.map MemberSummary.declaration := (congrArg UnitSummary.members shape :)
  have selectors : older.members.map MemberSummary.selector =
      newer.members.map MemberSummary.selector := by
    have same := congrArg (List.map MemberSummary.selector) declared
    rwa [List.map_map, List.map_map] at same
  rw [canonical.members_absorb selectors]
  exact MemberSummary.forall₂_below_merge canonical.dependencies declared

/-- A unit keeps all that it has when it absorbs a version of the same shape. -/
theorem Canonical.within_absorb (exported : older.isExported = newer.isExported) :
    older.Within (older.absorb newer) where
  shape := by
    have members : older.members.map MemberSummary.declaration =
        (older.absorb newer).members.map MemberSummary.declaration := by
      rw [← List.forall₂_eq_eq_eq, List.forall₂_map_left_iff, List.forall₂_map_right_iff]
      exact (canonical.forall₂_below_absorb shape).imp fun _ _ below => below.declaration
    calc older.shape
      _ = { older.shape with members := older.members.map MemberSummary.declaration } := rfl
      _ = { newer.shape with
            members := (older.absorb newer).members.map MemberSummary.declaration } := by
        rw [members, shape]
  fieldClasses name member := Ascending.mem_ofList.mpr (List.mem_append_left _ member)
  isExported := exported ▸ id
  members := canonical.forall₂_below_absorb shape

end Shape

end Absorb

theorem canonical_foldl_addMember {members added : List MemberSummary}
    (old : ∀ m ∈ members, m.dependencies.Canonical)
    (new : ∀ m ∈ added, m.dependencies.Canonical) :
    ∀ m ∈ added.foldl addMember members, m.dependencies.Canonical := by
  induction added generalizing members with
  | nil => exact old
  | cons first rest ih =>
    obtain ⟨head, new⟩ := List.forall_mem_cons.mp new
    refine ih (Ascending.forall_mem_upsert head old fun m _ => ?_) new
    exact Dependencies.canonical_union m.dependencies first.dependencies

end UnitSummary

namespace UnitDef

variable {u : UnitDef}

theorem canonical_memberSummaries {members : List MemberSummary}
    (done : u.memberSummaries = .ok members) : ∀ m ∈ members, m.dependencies.Canonical := by
  obtain ⟨methods, properties, exports, methodsDone, propertiesDone, exportsDone, rfl⟩ :=
    memberSummaries_eq_ok done
  have recorded : ∀ {selector isAbstract isExported edges m},
      MemberSummary.ofEdges selector isAbstract isExported edges = .ok m →
        m.dependencies.Canonical := by
    intro selector isAbstract isExported edges m found
    obtain ⟨gathered, _, rfl⟩ := MemberSummary.ofEdges_eq_ok found
    exact Dependencies.canonical_ofEdges gathered
  intro m member
  rcases List.mem_append.mp member with member | member
  · rcases List.mem_append.mp member with member | member
    · exact forall_of_mapM methodsDone (fun _ _ found => recorded found) m member
    · exact forall_of_mapM propertiesDone (fun _ _ found => recorded found) m member
  · unfold exportSummaries at exportsDone
    split at exportsDone
    · obtain rfl := Except.ok.inj exportsDone
      exact absurd member List.not_mem_nil
    · obtain ⟨_, found, rfl⟩ := map_eq_ok exportsDone
      obtain rfl := List.mem_singleton.mp member
      exact recorded found

theorem canonical_summary {summary : UnitSummary} (done : u.summary = .ok summary) :
    summary.Canonical where
  members := ascending_summary done
  dependencies := by
    obtain ⟨members, found, _, _, same⟩ := summary_eq_ok done
    rw [same]
    exact UnitSummary.canonical_foldl_addMember nofun (canonical_memberSummaries found)
  fieldClasses := by
    obtain ⟨_, _, rfl⟩ := exists_eq_of_summary done
    exact Ascending.by_ofList _

end UnitDef

end TreeShake
