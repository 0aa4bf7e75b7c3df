import TreeShake.Link
import TreeShake.Proofs.Absorption
import TreeShake.Proofs.Contracts

set_option autoImplicit false

/-!
Linking again after some units were changed. A changed unit stands where its earlier version stood
and has absorbed it. If the definitions are the old ones, the result is the old one. If only bodies
were rewritten, everything that runs in the first report runs in the second one: the new bodies may
add edges, and the old edges stay.
-/

namespace TreeShake

namespace UnitSummary

theorem mem_of_mem_replace {u v : UnitSummary} {units : List UnitSummary}
    (member : v ∈ replace u units) : v = u ∨ v ∈ units := by
  induction units with
  | nil => exact .inl (List.mem_singleton.mp member)
  | cons other rest ih =>
    rw [replace] at member
    split at member
    · rcases List.mem_cons.mp member with same | later
      · exact .inl same
      · exact .inr (List.mem_cons_of_mem _ later)
    · rcases List.mem_cons.mp member with rfl | later
      · exact .inr List.mem_cons_self
      · exact (ih later).imp_right (List.mem_cons_of_mem _)

theorem latest_subset (units : List UnitSummary) : latest units ⊆ units := by
  suffices general : ∀ kept u, u ∈ units.foldl (fun kept u => replace u kept) kept →
      u ∈ kept ∨ u ∈ units by
    exact fun u member => (general [] u member).resolve_left List.not_mem_nil
  induction units with
  | nil => exact fun _ _ => .inl
  | cons first rest ih =>
    intro kept u member
    rcases ih _ u member with held | later
    · rcases mem_of_mem_replace held with rfl | held
      · exact .inr List.mem_cons_self
      · exact .inl held
    · exact .inr (List.mem_cons_of_mem _ later)

/-- What becomes of a unit in an update. -/
def updated (changed : List UnitSummary) (u : UnitSummary) : UnitSummary :=
  (changed.find? fun newer => newer.name = u.name).elim u u.absorb

theorem updated_eq (changed : List UnitSummary) (u : UnitSummary) :
    u.updated changed = u ∨
      ∃ newer ∈ changed, newer.name = u.name ∧ u.updated changed = u.absorb newer := by
  cases found : changed.find? fun newer => newer.name = u.name with
  | none => exact .inl (by rw [updated, found]; rfl)
  | some newer =>
    have named := List.find?_some found
    exact .inr ⟨newer, List.mem_of_find?_eq_some found, of_decide_eq_true named,
      by rw [updated, found]; rfl⟩

theorem updated_filter (changed : List UnitSummary) (other : Name) (u : UnitSummary) :
    u.updated (changed.filter fun newer => newer.name ≠ other) =
      if u.name = other then u else u.updated changed := by
  by_cases same : u.name = other
  · have missing : ((changed.filter fun newer => newer.name ≠ other).find? fun newer =>
        newer.name = u.name) = none := by
      apply List.find?_eq_none.mpr
      intro newer member
      rw [same]
      simpa using (List.mem_filter.mp member).2
    rw [if_pos same, updated, missing]
    rfl
  · rw [if_neg same, updated, updated, List.find?_filter]
    congr 2
    funext newer
    by_cases named : newer.name = u.name
    · simp [named, same]
    · simp [named]

/-- The first unit is updated, and the change to it is used up. -/
theorem update_cons (u : UnitSummary) (rest changed : List UnitSummary) :
    update (u :: rest) changed =
      u.updated changed :: update rest (changed.filter fun newer => newer.name ≠ u.name) := by
  rw [update, updated]
  split
  · next found =>
    have unused : (changed.filter fun newer => newer.name ≠ u.name) = changed := by
      apply List.filter_eq_self.mpr
      intro newer member
      simpa using List.find?_eq_none.mp found newer member
    rw [found, unused]
    rfl
  · next newer found =>
    rw [found]
    rfl

/-- If no changed unit is new, an update changes each unit in its place. -/
theorem update_eq_map {units changed : List UnitSummary} (distinct : (units.map name).Nodup)
    (known : ∀ newer ∈ changed, newer.name ∈ units.map name) :
    update units changed = units.map (updated changed) := by
  induction units generalizing changed with
  | nil =>
    cases changed with
    | nil => rfl
    | cons newer _ => exact absurd (known newer List.mem_cons_self) List.not_mem_nil
  | cons u rest ih =>
    obtain ⟨fresh, distinct⟩ := List.nodup_cons.mp distinct
    have others : ∀ newer ∈ changed.filter fun newer => newer.name ≠ u.name,
        newer.name ∈ rest.map name := by
      intro newer member
      obtain ⟨member, other⟩ := List.mem_filter.mp member
      exact (List.mem_cons.mp (known newer member)).resolve_left (of_decide_eq_true other)
    rw [update_cons, List.map_cons, ih distinct others]
    refine congrArg _ (List.map_congr_left fun later member => ?_)
    rw [updated_filter, if_neg]
    exact fun same => fresh (same ▸ List.mem_map_of_mem member)

end UnitSummary

section Relink

variable {units changed : List UnitDef} {config : Config} {linked : Linked}
  (distinct : (units.map UnitDef.name).Nodup) (done : link units config = .ok linked)
include distinct done

/-- Changed definitions of units of the program are linked again, each in the place of its unit. -/
theorem exists_relink (summarized : ∀ v ∈ changed, ∃ summary, v.summary = .ok summary)
    (known : ∀ v ∈ changed, v.name ∈ units.map UnitDef.name) (again : Config) :
    ∃ fresh : List UnitSummary, (∀ newer ∈ fresh, ∃ v ∈ changed, v.summary = .ok newer) ∧
      relink linked.summaries changed again =
        .ok (.ofSummaries (linked.summaries.map (UnitSummary.updated fresh)) again) := by
  obtain ⟨summaries, old, rfl⟩ := map_eq_ok done
  obtain ⟨newer, new⟩ := UnitDef.exists_summaries summarized
  have source : ∀ s ∈ UnitSummary.latest newer, ∃ v ∈ changed, v.summary = .ok s :=
    fun s member => UnitDef.exists_definition new (UnitSummary.latest_subset newer member)
  refine ⟨UnitSummary.latest newer, source, ?_⟩
  rw [← UnitDef.map_name_summaries old] at distinct known
  have inside : ∀ s ∈ UnitSummary.latest newer, s.name ∈ summaries.map UnitSummary.name := by
    intro s member
    obtain ⟨v, given, found⟩ := source s member
    obtain ⟨_, _, rfl⟩ := UnitDef.exists_eq_of_summary found
    exact known v given
  rw [relink, new]
  exact congrArg Except.ok (congrArg (Linked.ofSummaries · again)
    (UnitSummary.update_eq_map distinct inside))

omit distinct in
theorem exists_summary_of_link {u : UnitDef} (member : u ∈ units) :
    ∃ summary ∈ linked.summaries, u.summary = .ok summary := by
  obtain ⟨summaries, old, rfl⟩ := map_eq_ok done
  exact UnitDef.exists_summary old member

/-- A summary comes from the unit of its name. -/
theorem summary_of_name {u : UnitDef} (member : u ∈ units) {s : UnitSummary}
    (inside : s ∈ linked.summaries) (named : s.name = u.name) : u.summary = .ok s := by
  obtain ⟨summaries, old, rfl⟩ := map_eq_ok done
  obtain ⟨w, other, found⟩ := UnitDef.exists_definition old inside
  obtain ⟨_, _, name, _, _⟩ := UnitDef.summary_eq_ok found
  obtain rfl := List.inj_on_of_nodup_map distinct other member (name.symm.trans named)
  exact found

end Relink

/-- If units of a program are linked again as they are, nothing changes. -/
theorem relink_link {units same : List UnitDef} (distinct : (units.map UnitDef.name).Nodup)
    (part : same ⊆ units) {config : Config} {linked : Linked}
    (done : link units config = .ok linked) : relink linked.summaries same config = .ok linked := by
  have summarized : ∀ v ∈ same, ∃ summary, v.summary = .ok summary := by
    intro v member
    obtain ⟨summary, _, found⟩ := exists_summary_of_link done (part member)
    exact ⟨summary, found⟩
  have known : ∀ v ∈ same, v.name ∈ units.map UnitDef.name :=
    fun v member => List.mem_map_of_mem (part member)
  obtain ⟨fresh, source, relinked⟩ := exists_relink distinct done summarized known config
  have unchanged : ∀ s ∈ linked.summaries, s.updated fresh = id s := by
    intro s inside
    rcases UnitSummary.updated_eq fresh s with unchanged | ⟨newer, member, named, absorbs⟩
    · exact unchanged
    · obtain ⟨v, given, found⟩ := source newer member
      obtain ⟨_, _, name, _, _⟩ := UnitDef.summary_eq_ok found
      have again := summary_of_name distinct done (part given) inside (named.symm.trans name)
      obtain rfl := Except.ok.inj (found.symm.trans again)
      exact absorbs.trans (UnitDef.canonical_summary found).absorb_self
  rw [relinked, List.map_congr_left unchanged, List.map_id]
  obtain ⟨summaries, _, rfl⟩ := map_eq_ok done
  rfl

/-- A method and a property with the same selector, which make up one member. -/
def maker : UnitDef where
  name := ⟨20⟩
  kind := .plainClass
  fields := [⟨⟨32⟩, .cls ⟨21⟩, false⟩]
  methods := [{ selector := .method ⟨30⟩, isExported := true,
                body := some ⟨.construct ⟨21⟩ Name.defaultConstructor [], .cls ⟨21⟩⟩ }]
  properties := [{ name := ⟨30⟩, getter := some ⟨.staticField ⟨21⟩ ⟨31⟩, .any⟩ }]

def made : UnitDef where
  name := ⟨21⟩
  kind := .plainClass
  methods := [{ selector := .ctor Name.defaultConstructor, body := some ⟨.skip, .noValue⟩ }]

def makerSummary : UnitSummary where
  name := ⟨20⟩
  kind := .plainClass
  fieldClasses := [⟨21⟩]
  isExported := true
  members := [{ selector := .method ⟨30⟩, isExported := true,
                dependencies := { reads := [(⟨21⟩, [⟨31⟩])],
                                  exactCalls := [(⟨21⟩, [.ctor Name.defaultConstructor])],
                                  instantiated := [⟨21⟩], mentioned := [⟨21⟩] } }]

def madeSummary : UnitSummary where
  name := ⟨21⟩
  kind := .plainClass
  members := [{ selector := .ctor Name.defaultConstructor }]

theorem link_maker :
    link [maker, made] {} = .ok (.ofSummaries [makerSummary, madeSummary] {}) := by
  have summarized : UnitDef.summaries [maker, made] = .ok [makerSummary, madeSummary] := by
    with_unfolding_all rfl
  rw [link, summarized]
  rfl

theorem relink_maker : ∃ linked, link [maker, made] {} = .ok linked ∧
    relink linked.summaries [made, maker] {} = .ok linked :=
  ⟨_, link_maker, relink_link (by decide) (by simp) link_maker⟩

/-- The second definition differs from the first one in bodies, and maybe in signatures and fields:
the unit has the same place in the hierarchy, the same export and the same members. -/
structure UnitDef.Rewrites (u v : UnitDef) : Prop where
  name : u.name = v.name
  kind : u.kind = v.kind
  superclass : u.superclass = v.superclass
  interfaces : u.interfaces = v.interfaces
  isExported : u.isExported = v.isExported
  members : ∃ before after, u.summary = .ok before ∧ v.summary = .ok after ∧
    before.members.map MemberSummary.declaration = after.members.map MemberSummary.declaration

theorem UnitDef.Rewrites.within {u v : UnitDef} (rewrites : u.Rewrites v)
    {older newer : UnitSummary} (before : u.summary = .ok older) (after : v.summary = .ok newer) :
    older.Within (older.absorb newer) := by
  obtain ⟨_, _, same, other, members⟩ := rewrites.members
  obtain rfl := Except.ok.inj (before.symm.trans same)
  obtain rfl := Except.ok.inj (after.symm.trans other)
  have canonical := canonical_summary before
  obtain ⟨olderMembers, _, rfl⟩ := exists_eq_of_summary before
  obtain ⟨newerMembers, _, rfl⟩ := exists_eq_of_summary after
  apply canonical.within_absorb
  · rw [UnitSummary.shape, UnitSummary.declaration, UnitSummary.shape, UnitSummary.declaration,
      UnitSummary.mk.injEq]
    exact ⟨rewrites.name, rewrites.kind, rewrites.superclass, rewrites.interfaces, rfl, members, rfl,
      rfl⟩
  · exact rewrites.isExported

theorem forall₂_within_updated {units rewritten : List UnitDef} {config : Config} {linked : Linked}
    (distinct : (units.map UnitDef.name).Nodup) (done : link units config = .ok linked)
    (rewrites : ∀ v ∈ rewritten, ∃ u ∈ units, u.Rewrites v) {fresh : List UnitSummary}
    (source : ∀ newer ∈ fresh, ∃ v ∈ rewritten, v.summary = .ok newer) :
    List.Forall₂ UnitSummary.Within linked.summaries
      (linked.summaries.map (UnitSummary.updated fresh)) := by
  rw [List.forall₂_map_right_iff, List.forall₂_same]
  intro s inside
  rcases UnitSummary.updated_eq fresh s with unchanged | ⟨newer, member, named, absorbs⟩
  · rw [unchanged]
    exact (UnitSummary.Below.refl s).within
  · obtain ⟨v, given, after⟩ := source newer member
    obtain ⟨u, old, rewrite⟩ := rewrites v given
    obtain ⟨_, _, name, _, _⟩ := UnitDef.summary_eq_ok after
    have own : s.name = u.name := named.symm.trans (name.trans rewrite.name.symm)
    rw [absorbs]
    exact rewrite.within (summary_of_name distinct done old inside own) after

/-- After the bodies of some units were rewritten, whatever ran in the program still does. -/
theorem relink_runs {units rewritten : List UnitDef} (distinct : (units.map UnitDef.name).Nodup)
    {roots : RootSet} {linked : Linked} (done : link units { roots := roots } = .ok linked)
    (rewrites : ∀ v ∈ rewritten, ∃ u ∈ units, u.Rewrites v) :
    ∃ again,
      relink linked.summaries rewritten { Config.refinement with roots := roots } = .ok again ∧
      again.report.diagnostics = [] ∧
      ∀ fact : Fact MemberRef, fact.Runs → linked.report.Shows fact → again.report.Shows fact := by
  have summarized : ∀ v ∈ rewritten, ∃ summary, v.summary = .ok summary := by
    intro v member
    obtain ⟨u, _, rewrite⟩ := rewrites v member
    obtain ⟨_, after, _, found, _⟩ := rewrite.members
    exact ⟨after, found⟩
  have known : ∀ v ∈ rewritten, v.name ∈ units.map UnitDef.name := by
    intro v member
    obtain ⟨u, inside, rewrite⟩ := rewrites v member
    exact rewrite.name ▸ List.mem_map_of_mem inside
  obtain ⟨fresh, source, relinked⟩ := exists_relink distinct done summarized known
    { Config.refinement with roots := roots }
  have within := forall₂_within_updated distinct done rewrites source
  refine ⟨_, relinked, Program.diagnostics_eq_nil rfl, fun fact runs shown => ?_⟩
  obtain ⟨summaries, _, rfl⟩ := map_eq_ok done
  have unmoved : roots.toList ⊆ roots.toList := List.Subset.refl _
  have below := Program.below_ofUnits within (c := { Config.refinement with roots := roots }) rfl
    unmoved
  -- What runs in the first program runs in it without contracts, and so in the second program.
  exact below.shape.shows (fun _ runs live => below.live (live.runs unmoved runs)) runs shown

/-- The method of `maker` without the construction. -/
def emptied : UnitDef :=
  { maker with
    methods := [{ selector := .method ⟨30⟩, isExported := true, body := some ⟨.skip, .noValue⟩ }] }

/-- The constructor that the old body called is kept. -/
theorem relink_emptied : ∃ linked again, link [maker, made] {} = .ok linked ∧
    linked.report.keeps ⟨⟨21⟩, .ctor Name.defaultConstructor⟩ = true ∧
    relink linked.summaries [emptied] Config.refinement = .ok again ∧
    again.report.diagnostics = [] ∧
    again.report.keeps ⟨⟨21⟩, .ctor Name.defaultConstructor⟩ = true := by
  have kept : (Linked.ofSummaries [makerSummary, madeSummary] {}).report.keeps
      ⟨⟨21⟩, .ctor Name.defaultConstructor⟩ = true := by decide
  have rewrites : maker.Rewrites emptied :=
    ⟨rfl, rfl, rfl, rfl, rfl, makerSummary,
      { makerSummary with
        members := [{ selector := .method ⟨30⟩, isExported := true,
                      dependencies := { reads := [(⟨21⟩, [⟨31⟩])] } }] },
      by with_unfolding_all rfl, by with_unfolding_all rfl, rfl⟩
  obtain ⟨again, relinked, clean, runs⟩ := relink_runs (by decide) link_maker
    (List.forall_mem_singleton.mpr ⟨maker, List.mem_cons_self, rewrites⟩)
  exact ⟨_, again, link_maker, kept, relinked, clean,
    runs (.body ⟨⟨21⟩, .ctor Name.defaultConstructor⟩) trivial kept⟩

end TreeShake
