import TreeShake.Proofs.Absorption
import TreeShake.Proofs.Contributions
import TreeShake.Proofs.Merging
import TreeShake.Proofs.Refusal

set_option autoImplicit false

/-!
The summary of a unit says of each member what the definitions of the unit say of it. Methods,
properties and exports contribute to the member with their selector. The member has the edges of all
its contributors, it is abstract if none of them has a body, and it is exported if one of them is.
As nothing else enters, the order of the definitions does not matter.
-/

namespace TreeShake

/-- A definition that a member is made of. -/
inductive Contributor where
  | method (m : MethodDef)
  | property (p : PropertyDef)
  | topLevel (x : ExportDef)

namespace Contributor

inductive HasBody : Contributor → Expr → Prop
  | method {m body} : m.body = some body → HasBody (.method m) body
  | getter {p body} : p.getter = some body → HasBody (.property p) body
  | setter {p setter} : p.setter = some setter → HasBody (.property p) setter.body
  | topLevel {x body} : x.target = .function body → HasBody (.topLevel x) body

/-- The edges that a definition of the owner contributes. The host may read and write a field that
is exported. -/
inductive Contributes (owner : Name) : Contributor → Edge → Prop
  | body {c body e edge} : HasBody c body → body.Occurs e → e.Contributes edge →
      Contributes owner c edge
  | param {m name ty cls} : (name, ty) ∈ m.params → ty.Names cls →
      Contributes owner (.method m) (.mention cls)
  | result {m cls} : m.result.Names cls → Contributes owner (.method m) (.mention cls)
  | setterParam {p setter cls} : p.setter = some setter → setter.param.2.Names cls →
      Contributes owner (.property p) (.mention cls)
  | read {x name} : x.target = .field name → Contributes owner (.topLevel x) (.readField owner name)
  | write {x name} : x.target = .field name →
      Contributes owner (.topLevel x) (.writeField owner name)
  | moduleAccessor {x} : x.target = .moduleAccessor →
      Contributes owner (.topLevel x) (.loadModule owner)

/-- A method that is only declared. -/
inductive Bodiless : Contributor → Prop
  | method {m} : m.body = none → Bodiless (.method m)

/-- A definition that the host can see. -/
inductive Exported : Contributor → Prop
  | method {m} : m.isExported = true → Exported (.method m)
  | property {p} : Exported (.property p)
  | topLevel {x} : Exported (.topLevel x)

@[simp] theorem bodiless_method {m : MethodDef} : (method m).Bodiless ↔ m.body = none :=
  ⟨fun bodiless => by cases bodiless; assumption, .method⟩

@[simp] theorem not_bodiless_property {p : PropertyDef} : ¬ (property p).Bodiless := nofun

@[simp] theorem not_bodiless_topLevel {x : ExportDef} : ¬ (topLevel x).Bodiless := nofun

@[simp] theorem exported_method {m : MethodDef} : (method m).Exported ↔ m.isExported = true :=
  ⟨fun exported => by cases exported; assumption, .method⟩

@[simp] theorem exported_property {p : PropertyDef} : (property p).Exported := .property

@[simp] theorem exported_topLevel {x : ExportDef} : (topLevel x).Exported := .topLevel

end Contributor

/-- The definitions that the member with a selector is made of. -/
inductive UnitDef.MadeOf (u : UnitDef) : Selector → Contributor → Prop
  | method {m} : m ∈ u.methods → MadeOf u m.selector (.method m)
  | property {p} : p ∈ u.properties → MadeOf u ⟨.pub, p.name⟩ (.property p)
  | topLevel {x} : x ∈ u.exports → MadeOf u ⟨.static, Name.topLevelExports⟩ (.topLevel x)

/-- The member says of its contributors what there is to say, and nothing else. -/
structure MemberSummary.Summarizes (m : MemberSummary) (owner : Name)
    (contributes : Contributor → Prop) : Prop where
  contributor : ∃ c, contributes c
  canonical : m.dependencies.Canonical
  edges : ∀ edge, edge ∈ m.dependencies ↔ ∃ c, contributes c ∧ c.Contributes owner edge
  isAbstract : m.isAbstract = true ↔ ∀ c, contributes c → c.Bodiless
  isExported : m.isExported = true ↔ ∃ c, contributes c ∧ c.Exported

theorem MemberSummary.Summarizes.unique {first second : MemberSummary} {owner : Name}
    {contributes : Contributor → Prop} (one : first.Summarizes owner contributes)
    (other : second.Summarizes owner contributes) (same : first.selector = second.selector) :
    first = second := by
  have isAbstract : first.isAbstract = second.isAbstract := by
    rw [Bool.eq_iff_iff, one.isAbstract, other.isAbstract]
  have isExported : first.isExported = second.isExported := by
    rw [Bool.eq_iff_iff, one.isExported, other.isExported]
  have dependencies : first.dependencies = second.dependencies := by
    apply one.canonical.eq_of_mem_iff other.canonical
    intro edge
    rw [one.edges, other.edges]
  cases first
  cases second
  simp_all

/-! Each definition, or all exports together, has a summary of its own. -/

section Parts

variable {owner : Name} {part : MemberSummary}

theorem mem_bodyEdges {body : Option Expr} {found : List Edge} (done : bodyEdges body = .ok found)
    {edge : Edge} :
    edge ∈ found ↔ ∃ b, body = some b ∧ ∃ e, b.Occurs e ∧ e.Contributes edge := by
  cases body with
  | none =>
    obtain rfl := Except.ok.inj done
    simp
  | some b => simp [Expr.mem_edges done]

theorem MethodDef.summarizes {m : MethodDef} (done : m.summary = .ok part) :
    part.selector = m.selector ∧ part.Summarizes owner (· ∈ [Contributor.method m]) := by
  obtain ⟨found, gathered, rfl⟩ := MemberSummary.ofEdges_eq_ok done
  obtain ⟨inner, extracted, joined⟩ := bind_eq_ok gathered
  obtain rfl := Except.ok.inj joined
  refine ⟨rfl, ⟨_, List.mem_singleton_self _⟩, Dependencies.canonical_ofEdges _, ?_, by simp,
    by simp⟩
  intro edge
  simp only [Dependencies.mem_ofEdges, List.mem_append, signatureEdges, List.mem_flatMap,
    Ty.mem_edges, mem_bodyEdges extracted, List.mem_singleton, exists_eq_left]
  constructor
  · rintro ((⟨⟨name, ty⟩, member, cls, names, rfl⟩ | ⟨cls, names, rfl⟩) | ⟨b, found, e, occurs, own⟩)
    · exact .param member names
    · exact .result names
    · exact .body (.method found) occurs own
  · intro contributes
    cases contributes with
    | param member names => exact .inl (.inl ⟨_, member, _, names, rfl⟩)
    | result names => exact .inl (.inr ⟨_, names, rfl⟩)
    | body hasBody occurs own =>
      cases hasBody with
      | method found => exact .inr ⟨_, found, _, occurs, own⟩

theorem PropertyDef.mem_setterEdges {p : PropertyDef} {found : List Edge}
    (done : p.setterEdges = .ok found) {edge : Edge} :
    edge ∈ found ↔ ∃ setter, p.setter = some setter ∧
      ((∃ cls, setter.param.2.Names cls ∧ .mention cls = edge) ∨
        ∃ e, setter.body.Occurs e ∧ e.Contributes edge) := by
  unfold setterEdges at done
  split at done
  · next none =>
    obtain rfl := Except.ok.inj done
    simp [none]
  · next setter some =>
    obtain ⟨inner, extracted, rfl⟩ := map_eq_ok done
    simp [some, Ty.mem_edges, Expr.mem_edges extracted]

theorem PropertyDef.summarizes {p : PropertyDef} (done : p.summary = .ok part) :
    part.selector = ⟨.pub, p.name⟩ ∧ part.Summarizes owner (· ∈ [Contributor.property p]) := by
  obtain ⟨found, gathered, rfl⟩ := MemberSummary.ofEdges_eq_ok done
  obtain ⟨getter, getterEdges, gathered⟩ := bind_eq_ok gathered
  obtain ⟨setter, setterEdges, joined⟩ := bind_eq_ok gathered
  obtain rfl := Except.ok.inj joined
  refine ⟨rfl, ⟨_, List.mem_singleton_self _⟩, Dependencies.canonical_ofEdges _, ?_, by simp,
    by simp⟩
  intro edge
  simp only [Dependencies.mem_ofEdges, List.mem_append, mem_bodyEdges getterEdges,
    mem_setterEdges setterEdges, List.mem_singleton, exists_eq_left]
  constructor
  · rintro (⟨b, found, e, occurs, own⟩ | ⟨s, found, ⟨cls, names, rfl⟩ | ⟨e, occurs, own⟩⟩)
    · exact .body (.getter found) occurs own
    · exact .setterParam found names
    · exact .body (.setter found) occurs own
  · intro contributes
    cases contributes with
    | setterParam found names => exact .inr ⟨_, found, .inl ⟨_, names, rfl⟩⟩
    | body hasBody occurs own =>
      cases hasBody with
      | getter found => exact .inl ⟨_, found, _, occurs, own⟩
      | setter found => exact .inr ⟨_, found, .inr ⟨_, occurs, own⟩⟩

theorem ExportDef.mem_edges {x : ExportDef} {found : List Edge}
    (done : x.edges owner = .ok found) {edge : Edge} :
    edge ∈ found ↔ (Contributor.topLevel x).Contributes owner edge := by
  obtain ⟨name, target⟩ := x
  cases target with
  | function body =>
    rw [Expr.mem_edges done]
    constructor
    · rintro ⟨e, occurs, own⟩
      exact .body (.topLevel rfl) occurs own
    · intro contributes
      cases contributes with
      | body hasBody occurs own =>
        cases hasBody with
        | topLevel function =>
          cases function
          exact ⟨_, occurs, own⟩
      | read other | write other | moduleAccessor other => cases other
  | field field =>
    obtain rfl := Except.ok.inj done
    simp only [List.mem_cons, List.not_mem_nil, or_false]
    constructor
    · rintro (rfl | rfl)
      · exact .read rfl
      · exact .write rfl
    · intro contributes
      cases contributes with
      | read same =>
        cases same
        exact .inl rfl
      | write same =>
        cases same
        exact .inr rfl
      | body hasBody =>
        cases hasBody with
        | topLevel other => cases other
      | moduleAccessor other => cases other
  | moduleAccessor =>
    obtain rfl := Except.ok.inj done
    rw [List.mem_singleton]
    constructor
    · rintro rfl
      exact .moduleAccessor rfl
    · intro contributes
      cases contributes with
      | moduleAccessor => rfl
      | body hasBody =>
        cases hasBody with
        | topLevel other => cases other
      | read other | write other => cases other

theorem ExportDef.summarizes {exports : List ExportDef} (some : exports ≠ [])
    (done : ExportDef.summary owner exports = .ok part) :
    part.selector = .topLevelExports ∧
      part.Summarizes owner (· ∈ exports.map Contributor.topLevel) := by
  obtain ⟨found, gathered, rfl⟩ := MemberSummary.ofEdges_eq_ok done
  obtain ⟨lists, each, rfl⟩ := map_eq_ok gathered
  obtain ⟨x, member⟩ := List.exists_mem_of_ne_nil _ some
  have first : Contributor.topLevel x ∈ exports.map Contributor.topLevel :=
    List.mem_map_of_mem member
  refine ⟨rfl, ⟨_, first⟩, Dependencies.canonical_ofEdges _, ?_, ?_, ?_⟩
  · intro edge
    rw [Dependencies.mem_ofEdges, List.mem_flatten]
    constructor
    · rintro ⟨own, listed, inside⟩
      obtain ⟨x, member, extracted⟩ := exists_mem_of_mapM each listed
      exact ⟨_, List.mem_map_of_mem member, (mem_edges extracted).mp inside⟩
    · rintro ⟨c, listed, contributes⟩
      obtain ⟨x, inside, rfl⟩ := List.mem_map.mp listed
      obtain ⟨own, listed, extracted⟩ := exists_of_mapM each inside
      exact ⟨own, listed, (mem_edges extracted).mpr contributes⟩
  · exact ⟨nofun, fun bodiless => nomatch bodiless _ first⟩
  · exact ⟨fun _ => ⟨_, first, .topLevel⟩, fun _ => rfl⟩

end Parts

namespace UnitDef

/-- The definitions that are summarized together, under the selectors of their members. -/
def contributors (u : UnitDef) : List (Selector × List Contributor) :=
  u.methods.map (fun m => (m.selector, [.method m])) ++
  u.properties.map (fun p => (⟨.pub, p.name⟩, [.property p])) ++
  if u.exports.isEmpty then [] else [(.topLevelExports, u.exports.map .topLevel)]

variable {u : UnitDef}

theorem mem_contributors {entry : Selector × List Contributor} :
    entry ∈ u.contributors ↔ (∃ m ∈ u.methods, (m.selector, [.method m]) = entry) ∨
      (∃ p ∈ u.properties, (⟨.pub, p.name⟩, [.property p]) = entry) ∨
      u.exports ≠ [] ∧ entry = (.topLevelExports, u.exports.map .topLevel) := by
  rw [contributors, List.mem_append, List.mem_append, List.mem_map, List.mem_map, or_assoc]
  refine or_congr_right (or_congr_right ?_)
  split
  · next empty => simp [List.isEmpty_iff.mp empty]
  · next some => simpa using fun _ => by simpa using some

theorem madeOf_iff {selector : Selector} {c : Contributor} :
    u.MadeOf selector c ↔ ∃ entry ∈ u.contributors, entry.1 = selector ∧ c ∈ entry.2 := by
  constructor
  · intro madeOf
    cases madeOf with
    | @method m member =>
      exact ⟨(m.selector, [.method m]), mem_contributors.mpr (.inl ⟨m, member, rfl⟩), rfl, by simp⟩
    | @property p member =>
      exact ⟨(⟨.pub, p.name⟩, [.property p]), mem_contributors.mpr (.inr (.inl ⟨p, member, rfl⟩)),
        rfl, by simp⟩
    | topLevel member =>
      have some := List.ne_nil_of_mem member
      exact ⟨(.topLevelExports, u.exports.map .topLevel),
        mem_contributors.mpr (.inr (.inr ⟨some, rfl⟩)), rfl, List.mem_map_of_mem member⟩
  · rintro ⟨entry, listed, rfl, inside⟩
    rcases mem_contributors.mp listed with ⟨m, member, rfl⟩ | ⟨p, member, rfl⟩ | ⟨_, rfl⟩
    · rw [List.mem_singleton.mp inside]
      exact .method member
    · rw [List.mem_singleton.mp inside]
      exact .property member
    · obtain ⟨x, member, rfl⟩ := List.mem_map.mp inside
      exact .topLevel member

theorem forall₂_summarizes {parts : List MemberSummary} (done : u.memberSummaries = .ok parts) :
    List.Forall₂ (fun entry part => part.selector = entry.1 ∧ part.Summarizes u.name (· ∈ entry.2))
      u.contributors parts := by
  obtain ⟨methods, properties, exports, methodsDone, propertiesDone, exportsDone, rfl⟩ :=
    memberSummaries_eq_ok done
  refine List.rel_append (List.rel_append ?_ ?_) ?_
  · rw [List.forall₂_map_left_iff]
    exact (forall₂_of_mapM methodsDone).imp fun _ _ found => MethodDef.summarizes found
  · rw [List.forall₂_map_left_iff]
    exact (forall₂_of_mapM propertiesDone).imp fun _ _ found => PropertyDef.summarizes found
  · unfold exportSummaries at exportsDone
    split
    · next empty =>
      rw [if_pos empty] at exportsDone
      obtain rfl := Except.ok.inj exportsDone
      exact .nil
    · next some =>
      rw [if_neg some] at exportsDone
      obtain ⟨part, found, rfl⟩ := map_eq_ok exportsDone
      exact .cons (ExportDef.summarizes (by simpa using some) found) .nil

/-- What the parts say of their contributors, the member that they make up says of all of these. -/
theorem summarizes_of_joins {entries : List (Selector × List Contributor)} {owner : Name}
    {parts : List MemberSummary} {whole : MemberSummary}
    (each : List.Forall₂ (fun entry part =>
      part.selector = entry.1 ∧ part.Summarizes owner (· ∈ entry.2)) entries parts)
    (joins : MemberSummary.Joins parts whole) (canonical : whole.dependencies.Canonical) :
    whole.Summarizes owner fun c => ∃ entry ∈ entries, entry.1 = whole.selector ∧ c ∈ entry.2 where
  contributor := by
    obtain ⟨part, member, same⟩ := joins.part
    obtain ⟨entry, listed, named, summarizes⟩ := exists_of_forall₂ each.flip member
    obtain ⟨c, inside⟩ := summarizes.contributor
    exact ⟨c, entry, listed, named.symm.trans same, inside⟩
  canonical := canonical
  edges edge := by
    rw [joins.edges]
    constructor
    · rintro ⟨part, member, same, held⟩
      obtain ⟨entry, listed, named, summarizes⟩ := exists_of_forall₂ each.flip member
      obtain ⟨c, inside, contributes⟩ := (summarizes.edges edge).mp held
      exact ⟨c, ⟨entry, listed, named.symm.trans same, inside⟩, contributes⟩
    · rintro ⟨c, ⟨entry, listed, same, inside⟩, contributes⟩
      obtain ⟨part, member, named, summarizes⟩ := exists_of_forall₂ each listed
      exact ⟨part, member, named.trans same, (summarizes.edges edge).mpr ⟨c, inside, contributes⟩⟩
  isAbstract := by
    rw [joins.isAbstract]
    constructor
    · rintro abstract c ⟨entry, listed, same, inside⟩
      obtain ⟨part, member, named, summarizes⟩ := exists_of_forall₂ each listed
      exact summarizes.isAbstract.mp (abstract part member (named.trans same)) c inside
    · intro bodiless part member same
      obtain ⟨entry, listed, named, summarizes⟩ := exists_of_forall₂ each.flip member
      apply summarizes.isAbstract.mpr
      exact fun c inside => bodiless c ⟨entry, listed, named.symm.trans same, inside⟩
  isExported := by
    rw [joins.isExported]
    constructor
    · rintro ⟨part, member, same, exported⟩
      obtain ⟨entry, listed, named, summarizes⟩ := exists_of_forall₂ each.flip member
      obtain ⟨c, inside, exported⟩ := summarizes.isExported.mp exported
      exact ⟨c, ⟨entry, listed, named.symm.trans same, inside⟩, exported⟩
    · rintro ⟨c, ⟨entry, listed, same, inside⟩, exported⟩
      obtain ⟨part, member, named, summarizes⟩ := exists_of_forall₂ each listed
      exact ⟨part, member, named.trans same, summarizes.isExported.mpr ⟨c, inside, exported⟩⟩

theorem isExported_eq_true_iff :
    u.isExported = true ↔ ∃ selector c, u.MadeOf selector c ∧ c.Exported := by
  simp only [isExported, Bool.or_eq_true, Bool.not_eq_true', List.isEmpty_eq_false_iff_exists_mem,
    List.any_eq_true]
  constructor
  · rintro ((⟨x, member⟩ | ⟨p, member⟩) | ⟨m, member, exported⟩)
    · exact ⟨_, _, .topLevel member, .topLevel⟩
    · exact ⟨_, _, .property member, .property⟩
    · exact ⟨_, _, .method member, .method exported⟩
  · rintro ⟨selector, c, madeOf, exported⟩
    cases madeOf with
    | topLevel member => exact .inl (.inl ⟨_, member⟩)
    | property member => exact .inl (.inr ⟨_, member⟩)
    | method member => exact .inr ⟨_, member, Contributor.exported_method.mp exported⟩

theorem mem_fieldClasses {cls : Name} :
    cls ∈ u.fieldClasses ↔ ∃ field ∈ u.fields, field.ty.Names cls := by
  simp [fieldClasses, Ty.className?_eq_some_iff]

/-- The same definitions in another order. -/
structure Reorders (v u : UnitDef) : Prop where
  name : v.name = u.name
  fields : v.fields.Perm u.fields
  methods : v.methods.Perm u.methods
  properties : v.properties.Perm u.properties
  exports : v.exports.Perm u.exports

theorem Reorders.symm {v : UnitDef} (reorders : v.Reorders u) : u.Reorders v where
  name := reorders.name.symm
  fields := reorders.fields.symm
  methods := reorders.methods.symm
  properties := reorders.properties.symm
  exports := reorders.exports.symm

theorem MadeOf.reorders {v : UnitDef} {selector : Selector} {c : Contributor}
    (madeOf : u.MadeOf selector c) (reorders : u.Reorders v) : v.MadeOf selector c := by
  cases madeOf with
  | method member => exact .method (reorders.methods.subset member)
  | property member => exact .property (reorders.properties.subset member)
  | topLevel member => exact .topLevel (reorders.exports.subset member)

theorem HasBody.reorders {v : UnitDef} {selector : Selector} {body : Expr}
    (hasBody : u.HasBody selector body) (reorders : u.Reorders v) : v.HasBody selector body := by
  cases hasBody with
  | method member found => exact .method (reorders.methods.subset member) found
  | getter member found => exact .getter (reorders.properties.subset member) found
  | setter member found => exact .setter (reorders.properties.subset member) found
  | topLevel member found => exact .topLevel (reorders.exports.subset member) found

/-- Whether definitions are refused does not depend on their order, though the fault may. -/
theorem exists_summary_of_reorders {v : UnitDef} (reorders : v.Reorders u) {summary : UnitSummary}
    (done : u.summary = .ok summary) : ∃ other, v.summary = .ok other := by
  rw [← fault?_eq_none_iff, fault?_summary_eq_none_iff]
  have sound : u.Sound := fault?_summary_eq_none_iff.mp (fault?_eq_none_iff.mpr ⟨summary, done⟩)
  exact fun selector body hasBody => sound selector body (hasBody.reorders reorders)

section Summary

variable {summary : UnitSummary} (done : u.summary = .ok summary)
include done

theorem exists_composed : ∃ parts, u.memberSummaries = .ok parts ∧
    UnitSummary.Composed parts summary.members := by
  obtain ⟨parts, found, _, _, same⟩ := summary_eq_ok done
  rw [same]
  exact ⟨parts, found, UnitSummary.composed_nil.foldl_addMember parts⟩

theorem summarizes_of_mem {m : MemberSummary} (member : m ∈ summary.members) :
    m.Summarizes u.name (u.MadeOf m.selector) := by
  obtain ⟨parts, found, composed⟩ := exists_composed done
  have madeOf : u.MadeOf m.selector = fun c =>
      ∃ entry ∈ u.contributors, entry.1 = m.selector ∧ c ∈ entry.2 :=
    funext fun _ => propext madeOf_iff
  rw [madeOf]
  exact summarizes_of_joins (forall₂_summarizes found) (composed.joins m member)
    ((canonical_summary done).dependencies m member)

theorem exists_mem_of_madeOf {selector : Selector} {c : Contributor}
    (madeOf : u.MadeOf selector c) : ∃ m ∈ summary.members, m.selector = selector := by
  obtain ⟨parts, found, composed⟩ := exists_composed done
  obtain ⟨entry, listed, rfl, _⟩ := madeOf_iff.mp madeOf
  obtain ⟨part, member, named, _⟩ := exists_of_forall₂ (forall₂_summarizes found) listed
  rw [← named]
  exact List.mem_map.mp (composed.complete part member)

theorem isExported_iff :
    summary.isExported = true ↔ ∃ m ∈ summary.members, m.isExported = true := by
  have same : summary.isExported = u.isExported := by
    obtain ⟨_, _, rfl⟩ := exists_eq_of_summary done
    rfl
  rw [same, isExported_eq_true_iff]
  constructor
  · rintro ⟨selector, c, madeOf, exported⟩
    obtain ⟨m, member, rfl⟩ := exists_mem_of_madeOf done madeOf
    exact ⟨m, member, (summarizes_of_mem done member).isExported.mpr ⟨c, madeOf, exported⟩⟩
  · rintro ⟨m, member, exported⟩
    obtain ⟨c, madeOf, exported⟩ := (summarizes_of_mem done member).isExported.mp exported
    exact ⟨m.selector, c, madeOf, exported⟩

theorem mem_members_of_reorders {v : UnitDef} (reorders : u.Reorders v) {other : UnitSummary}
    (found : v.summary = .ok other) {m : MemberSummary} (member : m ∈ summary.members) :
    m ∈ other.members := by
  have mine := summarizes_of_mem done member
  obtain ⟨c, madeOf⟩ := mine.contributor
  obtain ⟨n, inside, named⟩ := exists_mem_of_madeOf found (madeOf.reorders reorders)
  have theirs := summarizes_of_mem found inside
  have same : v.MadeOf n.selector = u.MadeOf m.selector := by
    funext c
    rw [named]
    exact propext ⟨fun theirs => theirs.reorders reorders.symm, fun mine => mine.reorders reorders⟩
  rw [same, ← reorders.name] at theirs
  rwa [mine.unique theirs named.symm]

theorem members_eq_of_reorders {v : UnitDef} (reorders : v.Reorders u) {other : UnitSummary}
    (found : v.summary = .ok other) : other.members = summary.members := by
  apply Ascending.eq_of_mem_iff (ascending_summary found) (ascending_summary done)
  intro m
  constructor
  · exact mem_members_of_reorders found reorders done
  · exact mem_members_of_reorders done reorders.symm found

theorem fieldClasses_eq : summary.fieldClasses = u.fieldClasses := by
  obtain ⟨_, _, rfl⟩ := exists_eq_of_summary done
  rfl

theorem fieldClasses_eq_of_reorders {v : UnitDef} (reorders : v.Reorders u) {other : UnitSummary}
    (found : v.summary = .ok other) : other.fieldClasses = summary.fieldClasses := by
  apply Ascending.eq_of_mem_iff (canonical_summary found).fieldClasses
    (canonical_summary done).fieldClasses
  intro cls
  rw [fieldClasses_eq found, fieldClasses_eq done, mem_fieldClasses, mem_fieldClasses]
  simp only [reorders.fields.mem_iff]

end Summary

/-- The summary of a unit loses nothing and invents nothing, and it does not depend on the order of
the definitions. -/
theorem summary_composed {summary : UnitSummary} (done : u.summary = .ok summary) :
    Ascending.By MemberSummary.selector summary.members ∧
    (∀ selector, (summary.member? selector).isSome = true ↔ ∃ c, u.MadeOf selector c) ∧
    (∀ selector m, summary.member? selector = some m →
      m.selector = selector ∧ m.Summarizes u.name (u.MadeOf selector)) ∧
    (summary.isExported = true ↔ ∃ m ∈ summary.members, m.isExported = true) ∧
    Ascending.By id summary.fieldClasses ∧
    (∀ cls, cls ∈ summary.fieldClasses ↔ ∃ field ∈ u.fields, field.ty.Names cls) ∧
    ∀ v : UnitDef, v.Reorders u → ∃ other, v.summary = .ok other ∧
      other.members = summary.members ∧ other.fieldClasses = summary.fieldClasses := by
  refine ⟨ascending_summary done, fun selector => ?_, fun selector m found => ?_,
    isExported_iff done, (canonical_summary done).fieldClasses, fun cls => ?_, fun v reorders => ?_⟩
  · rw [Option.isSome_iff_exists]
    constructor
    · rintro ⟨m, found⟩
      obtain ⟨member, rfl⟩ := (UnitSummary.member?_eq_some_iff (ascending_summary done)).mp found
      exact (summarizes_of_mem done member).contributor
    · rintro ⟨c, madeOf⟩
      obtain ⟨m, member, named⟩ := exists_mem_of_madeOf done madeOf
      exact ⟨m, (UnitSummary.member?_eq_some_iff (ascending_summary done)).mpr ⟨member, named⟩⟩
  · obtain ⟨member, rfl⟩ := (UnitSummary.member?_eq_some_iff (ascending_summary done)).mp found
    exact ⟨rfl, summarizes_of_mem done member⟩
  · rw [fieldClasses_eq done, mem_fieldClasses]
  · obtain ⟨other, found⟩ := exists_summary_of_reorders reorders done
    exact ⟨other, found, members_eq_of_reorders done reorders found,
      fieldClasses_eq_of_reorders done reorders found⟩

/-- A declared method has the selector of a property, another one is declared twice, and a method
has the selector of the exports. -/
def entangled : UnitDef where
  name := ⟨20⟩
  kind := .moduleClass
  fields := [{ name := ⟨60⟩, ty := .cls ⟨41⟩ },
    { name := ⟨61⟩, ty := .array ⟨.cls ⟨40⟩, 2, by decide⟩ }, { name := ⟨62⟩, ty := .cls ⟨41⟩ }]
  methods := [{ selector := .method ⟨31⟩, result := .cls ⟨43⟩ },
    { selector := .topLevelExports, body := some ⟨.loadModule ⟨45⟩, .any⟩ },
    { selector := .method ⟨30⟩, params := [(⟨50⟩, .cls ⟨44⟩)] },
    { selector := .method ⟨31⟩, isExported := true }]
  properties := [{ name := ⟨30⟩, setter := some ⟨(⟨51⟩, .cls ⟨42⟩), ⟨.skip, .noValue⟩⟩ }]
  exports := [{ name := ⟨32⟩, target := .field ⟨60⟩ }, { name := ⟨33⟩, target := .moduleAccessor }]

-- The method that is only declared stays abstract, though one of its declarations is exported.
theorem summary_entangled :
    let twice : MemberSummary :=
      { selector := .method ⟨31⟩, isAbstract := true, isExported := true,
        dependencies := { mentioned := [⟨43⟩] } }
    let summary : UnitSummary :=
      { name := ⟨20⟩, kind := .moduleClass, isExported := true, exportNames := [⟨32⟩, ⟨33⟩],
        fieldClasses := [⟨40⟩, ⟨41⟩],
        members := [
          { selector := .method ⟨30⟩, isExported := true,
            dependencies := { mentioned := [⟨42⟩, ⟨44⟩] } },
          twice,
          { selector := .topLevelExports, isExported := true,
            dependencies := { reads := [(⟨20⟩, [⟨60⟩])], writes := [(⟨20⟩, [⟨60⟩])],
                              modules := [⟨20⟩, ⟨45⟩] } }] }
    let reversed : UnitDef := { entangled with
      fields := entangled.fields.reverse, methods := entangled.methods.reverse,
      exports := entangled.exports.reverse }
    entangled.summary = .ok summary ∧
      twice.Summarizes ⟨20⟩ (entangled.MadeOf (.method ⟨31⟩)) ∧
      ∃ other, reversed.summary = .ok other ∧ other.members = summary.members ∧
        other.fieldClasses = summary.fieldClasses := by
  intro twice summary reversed
  have done : entangled.summary = .ok summary := by with_unfolding_all rfl
  obtain ⟨_, _, members, _, _, _, reordered⟩ := summary_composed done
  have reorders : reversed.Reorders entangled :=
    ⟨rfl, List.reverse_perm _, List.reverse_perm _, .refl _, List.reverse_perm _⟩
  exact ⟨done, (members (.method ⟨31⟩) twice (by decide)).2, reordered reversed reorders⟩

end UnitDef

end TreeShake
