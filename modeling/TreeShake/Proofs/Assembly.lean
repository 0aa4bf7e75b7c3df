import TreeShake.Proofs.Arrival
import TreeShake.Proofs.Refusal
import TreeShake.Proofs.Relinking

set_option autoImplicit false

/-!
Which units a program has after some of them were changed. Names may repeat, in the program and among
the changed definitions: of the program the first unit of a name is changed, and of the definitions
the last one counts. A definition with a new name goes to the end, to the place of the first one with
this name.
-/

namespace TreeShake

namespace UnitSummary

theorem map_name_replace (units : List UnitSummary) (u : UnitSummary) :
    (replace u units).map name =
      if u.name ∈ units.map name then units.map name else units.map name ++ [u.name] := by
  induction units with
  | nil => rfl
  | cons other rest ih =>
    rw [replace]
    by_cases same : other.name = u.name
    · simp [same]
    · have different : u.name ≠ other.name := Ne.symm same
      rw [if_neg same, List.map_cons, ih, List.map_cons]
      by_cases known : u.name ∈ rest.map name
      · rw [if_pos known, if_pos (List.mem_cons_of_mem _ known)]
      · rw [if_neg known, if_neg (List.not_mem_cons_of_ne_of_not_mem different known)]
        rfl

theorem find?_replace (units : List UnitSummary) (u : UnitSummary) (wanted : Name) :
    ((replace u units).find? fun v => v.name = wanted) =
      if u.name = wanted then some u else units.find? fun v => v.name = wanted := by
  induction units with
  | nil => by_cases same : u.name = wanted <;> simp [replace, same]
  | cons other rest ih =>
    rw [replace]
    by_cases same : other.name = u.name
    · by_cases named : u.name = wanted <;> simp [same, named]
    · rw [if_neg same, List.find?_cons, ih, List.find?_cons]
      by_cases named : u.name = wanted
      · have other : other.name ≠ wanted := fun equal => same (equal.trans named.symm)
        simp [named, other]
      · simp [named]

/-- The units that count stand in the order in which their names came first. -/
theorem map_name_latest (units : List UnitSummary) :
    (latest units).map name = (units.map name).eraseDups :=
  Arrival.map_foldl_eq_eraseDups map_name_replace units

/-- The unit that counts is the last one of its name. -/
theorem find?_latest (units : List UnitSummary) (wanted : Name) :
    ((latest units).find? fun u => u.name = wanted) =
      units.reverse.find? fun u => u.name = wanted := by
  induction units using List.reverseRecOn with
  | nil => rfl
  | append_singleton units u ih =>
    have step : latest (units ++ [u]) = replace u (latest units) := List.foldl_append
    rw [step, find?_replace, ih, List.reverse_concat, List.find?_cons]
    by_cases named : u.name = wanted <;> simp [named]

theorem find?_of_mem_latest {units : List UnitSummary} {u : UnitSummary}
    (member : u ∈ latest units) :
    (units.reverse.find? fun v => v.name = u.name) = some u := by
  have distinct : ((latest units).map name).Nodup := by
    rw [map_name_latest]
    exact Arrival.nodup_eraseDups _
  rw [← find?_latest]
  cases found : (latest units).find? fun v => v.name = u.name with
  | none => exact absurd (decide_eq_true rfl) (List.find?_eq_none.mp found u member)
  | some v =>
    have named : v.name = u.name := of_decide_eq_true (List.find?_some found :)
    have inside := List.mem_of_find?_eq_some found
    rw [List.inj_on_of_nodup_map distinct inside member named]

/-- An update changes the first unit of each name, and the changed units with new names follow. -/
theorem update_eq (units changed : List UnitSummary) :
    update units changed =
      (units.mapIdx fun i u =>
        if u.name ∈ (units.take i).map name then u else u.updated changed) ++
      changed.filter fun newer => newer.name ∉ units.map name := by
  induction units generalizing changed with
  | nil => simp [update]
  | cons u rest ih =>
    rw [update_cons, ih, List.mapIdx_cons, List.cons_append]
    refine congrArg₂ _ (by simp) (congrArg₂ _ ?_ ?_)
    · congr 1
      funext i v
      simp only [List.take_succ_cons, List.map_cons, List.mem_cons, updated_filter]
      by_cases same : v.name = u.name
      · simp [same]
      · simp [same]
    · rw [List.filter_filter]
      congr 1
      funext newer
      rw [List.map_cons]
      by_cases same : newer.name = u.name
      · simp [same]
      · simp [same]

theorem getElem?_update {units changed : List UnitSummary} {i : Nat} {u : UnitSummary}
    (placed : units[i]? = some u) :
    (update units changed)[i]? =
      some (if u.name ∈ (units.take i).map name then u else u.updated changed) := by
  have inside : i < units.length := (List.getElem?_eq_some_iff.mp placed).choose
  rw [update_eq, List.getElem?_append_left (by rwa [List.length_mapIdx]), List.getElem?_mapIdx,
    placed]
  rfl

theorem drop_update (units changed : List UnitSummary) :
    (update units changed).drop units.length =
      changed.filter fun newer => newer.name ∉ units.map name := by
  rw [update_eq]
  exact List.drop_left' List.length_mapIdx

theorem updated_eq_self {changed : List UnitSummary} {u : UnitSummary}
    (other : u.name ∉ changed.map name) : u.updated changed = u := by
  have missing : (changed.find? fun newer => newer.name = u.name) = none := by
    apply List.find?_eq_none.mpr
    intro newer member named
    apply other
    rw [← of_decide_eq_true named]
    exact List.mem_map_of_mem member
  rw [updated, missing]
  rfl

end UnitSummary

/-- The last of the definitions with a name. -/
def UnitDef.last? (units : List UnitDef) (name : Name) : Option UnitDef :=
  units.reverse.find? fun u => u.name = name

/-- The units of a program after some definitions were changed. -/
structure Assembled (earlier : List UnitSummary) (changed : List UnitDef)
    (units : List UnitSummary) : Prop where
  /-- The first unit of a name absorbs the last definition of it. -/
  absorbs : ∀ i u v, earlier[i]? = some u → u.name ∉ (earlier.take i).map UnitSummary.name →
    UnitDef.last? changed u.name = some v →
    ∃ newer, v.summary = .ok newer ∧ units[i]? = some (u.absorb newer)
  /-- All other units stay as they are. -/
  keeps : ∀ i u, earlier[i]? = some u →
    u.name ∈ (earlier.take i).map UnitSummary.name ∨ u.name ∉ changed.map UnitDef.name →
    units[i]? = some u
  /-- The new names follow, in the order in which they come first. -/
  names : (units.drop earlier.length).map UnitSummary.name =
    (changed.map UnitDef.name).eraseDups.filter fun name => name ∉ earlier.map UnitSummary.name
  added : ∀ u ∈ units.drop earlier.length,
    ∃ v, UnitDef.last? changed u.name = some v ∧ v.summary = .ok u

section Assembly

variable {changed : List UnitDef} {summaries : List UnitSummary}
  (done : UnitDef.summaries changed = .ok summaries)
include done

/-- The summaries of the last definitions are the last summaries. -/
theorem UnitDef.find?_reverse_summaries {wanted : Name} {newer : UnitSummary} :
    (summaries.reverse.find? fun s => s.name = wanted) = some newer ↔
      ∃ v, last? changed wanted = some v ∧ v.summary = .ok newer := by
  have paired : List.Forall₂ (fun v s => v.summary = .ok s) changed.reverse summaries.reverse :=
    List.rel_reverse ((forall₂_of_mapM done).imp fun _ _ found => mapError_eq_ok found)
  have names : ∀ (v : UnitDef) (s : UnitSummary), v.summary = .ok s →
      decide (v.name = wanted) = decide (s.name = wanted) := by
    intro v s found
    obtain ⟨_, _, name, _, _⟩ := summary_eq_ok found
    rw [name]
  have pair := rel_find? names paired
  rw [last?]
  generalize changed.reverse.find? _ = definition at pair ⊢
  generalize summaries.reverse.find? _ = found at pair ⊢
  cases pair with
  | none => simp
  | some pair => simp [pair.2]

theorem assembled_update (earlier : List UnitSummary) :
    Assembled earlier changed (UnitSummary.update earlier (UnitSummary.latest summaries)) where
  absorbs i u v placed first last := by
    have member : v ∈ changed := List.mem_reverse.mp (List.mem_of_find?_eq_some last)
    obtain ⟨newer, _, found⟩ := UnitDef.exists_summary done member
    have latest := (UnitDef.find?_reverse_summaries done).mpr ⟨v, last, found⟩
    refine ⟨newer, found, ?_⟩
    rw [UnitSummary.getElem?_update placed, if_neg first, UnitSummary.updated,
      UnitSummary.find?_latest, latest]
    rfl
  keeps i u placed unchanged := by
    rw [UnitSummary.getElem?_update placed]
    by_cases later : u.name ∈ (earlier.take i).map UnitSummary.name
    · rw [if_pos later]
    · have other : u.name ∉ (UnitSummary.latest summaries).map UnitSummary.name := by
        rw [UnitSummary.map_name_latest, List.mem_eraseDups, UnitDef.map_name_summaries done]
        exact unchanged.resolve_left later
      rw [if_neg later, UnitSummary.updated_eq_self other]
  names := by
    rw [UnitSummary.drop_update, ← UnitDef.map_name_summaries done, ← UnitSummary.map_name_latest,
      List.filter_map]
    rfl
  added u member := by
    rw [UnitSummary.drop_update] at member
    have latest := UnitSummary.find?_of_mem_latest (List.mem_filter.mp member).1
    exact (UnitDef.find?_reverse_summaries done).mp latest

end Assembly

/-- The fault is that of the first definition without a summary. -/
theorem UnitDef.summaries_eq_error_iff {units : List UnitDef} {fault : UnitFault} :
    summaries units = .error fault ↔
      ∃ before v after, units = before ++ v :: after ∧
        (∀ w ∈ before, ∃ summary, w.summary = .ok summary) ∧
        v.name = fault.unit ∧ v.summary = .error fault.cause := by
  rw [← fault?_eq_some_iff, fault?_summaries, List.findSome?_eq_some_iff]
  constructor
  · rintro ⟨before, v, after, split, failed, passed⟩
    obtain ⟨cause, found, rfl⟩ := Option.map_eq_some_iff.mp failed
    refine ⟨before, v, after, split, fun w member => ?_, rfl, fault?_eq_some_iff.mp found⟩
    exact fault?_eq_none_iff.mp (Option.map_eq_none_iff.mp (passed w member))
  · rintro ⟨before, v, after, split, passed, named, failed⟩
    refine ⟨before, v, after, split, ?_, fun w member => ?_⟩
    · rw [fault?_eq_some_iff.mpr failed, Option.map_some, named]
    · rw [fault?_eq_none_iff.mpr (passed w member), Option.map_none]

/-- Relinking gives the units in their places with the analysis of just these units, or else the
fault in the first definition that has one. -/
theorem relink_assembles (earlier : List UnitSummary) (changed : List UnitDef) (config : Config) :
    ((∀ v ∈ changed, ∃ summary, v.summary = .ok summary) →
      ∃ units, Assembled earlier changed units ∧
        relink earlier changed config = .ok ⟨units, analyze units config⟩) ∧
    ∀ fault, relink earlier changed config = .error fault ↔
      ∃ before v after, changed = before ++ v :: after ∧
        (∀ w ∈ before, ∃ summary, w.summary = .ok summary) ∧
        v.name = fault.unit ∧ v.summary = .error fault.cause := by
  constructor
  · intro each
    obtain ⟨summaries, done⟩ := UnitDef.exists_summaries each
    refine ⟨_, assembled_update done earlier, ?_⟩
    rw [relink, done]
    rfl
  · intro fault
    rw [← UnitDef.summaries_eq_error_iff, relink, ← fault?_eq_some_iff, fault?_map,
      fault?_eq_some_iff]

/-- A class with a method that loads a module. -/
def loader (name module : Name) : UnitDef where
  name := name
  kind := .plainClass
  methods := [{ selector := .method ⟨30⟩, body := some ⟨.loadModule module, .any⟩ }]

def loaderSummary (name : Name) (modules : List Name) : UnitSummary where
  name := name
  kind := .plainClass
  members := [{ selector := .method ⟨30⟩, dependencies := { modules := modules } }]

-- Of the two units with one name the first absorbs the last definition. The unit that is defined
-- twice and new goes before the one that is defined between.
theorem relink_loaders :
    let earlier := [loaderSummary ⟨20⟩ [⟨50⟩], loaderSummary ⟨21⟩ [⟨51⟩], loaderSummary ⟨20⟩ [⟨52⟩]]
    let changed := [loader ⟨22⟩ ⟨53⟩, loader ⟨20⟩ ⟨54⟩, loader ⟨23⟩ ⟨55⟩, loader ⟨22⟩ ⟨56⟩,
      loader ⟨20⟩ ⟨57⟩]
    let units := [loaderSummary ⟨20⟩ [⟨50⟩, ⟨57⟩], loaderSummary ⟨21⟩ [⟨51⟩],
      loaderSummary ⟨20⟩ [⟨52⟩], loaderSummary ⟨22⟩ [⟨56⟩], loaderSummary ⟨23⟩ [⟨55⟩]]
    relink earlier changed {} = .ok ⟨units, analyze units {}⟩ ∧ Assembled earlier changed units := by
  intro earlier changed units
  have done : UnitDef.summaries changed =
      .ok [loaderSummary ⟨22⟩ [⟨53⟩], loaderSummary ⟨20⟩ [⟨54⟩], loaderSummary ⟨23⟩ [⟨55⟩],
        loaderSummary ⟨22⟩ [⟨56⟩], loaderSummary ⟨20⟩ [⟨57⟩]] := by
    with_unfolding_all rfl
  have summarized : ∀ v ∈ changed, ∃ summary, v.summary = .ok summary := by
    intro v member
    obtain ⟨summary, _, found⟩ := UnitDef.exists_summary done member
    exact ⟨summary, found⟩
  have linked : relink earlier changed {} = .ok ⟨units, analyze units {}⟩ := by
    rw [relink, done]
    rfl
  obtain ⟨again, assembled, same⟩ := (relink_assembles earlier changed {}).1 summarized
  obtain rfl := congrArg Linked.summaries (Except.ok.inj (linked.symm.trans same))
  exact ⟨linked, assembled⟩

end TreeShake
