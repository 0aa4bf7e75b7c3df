import TreeShake.Extraction.Unit
import TreeShake.Proofs.Correspondence
import TreeShake.Proofs.KeyedLists
import TreeShake.Proofs.Occurrence

set_option autoImplicit false

/-!
Nothing of a definition is lost in its summary. The edges of every node that is evaluated are in the
record of the member that the body belongs to, whichever other definitions the member is made of, and
a member with a body somewhere is not abstract.
-/

namespace TreeShake

section Results

variable {ε α β : Type}

theorem bind_eq_ok {result : Except ε α} {next : α → Except ε β} {b : β}
    (done : (result >>= next) = .ok b) : ∃ a, result = .ok a ∧ next a = .ok b := by
  cases result with
  | error fault => cases done
  | ok a => exact ⟨a, rfl, done⟩

theorem map_eq_ok {result : Except ε α} {f : α → β} {b : β} (done : result.map f = .ok b) :
    ∃ a, result = .ok a ∧ f a = b := by
  cases result with
  | error fault => cases done
  | ok a => exact ⟨a, rfl, Except.ok.inj done⟩

/-- A sequence of computations that succeeds has the result of each one. -/
theorem forall₂_of_mapM {f : α → Except ε β} {entries : List α} {results : List β}
    (done : entries.mapM f = .ok results) :
    List.Forall₂ (fun a b => f a = .ok b) entries results := by
  induction entries generalizing results with
  | nil =>
    obtain rfl := Except.ok.inj (List.mapM_nil.symm.trans done)
    exact .nil
  | cons first rest ih =>
    rw [List.mapM_cons] at done
    obtain ⟨b, head, done⟩ := bind_eq_ok done
    obtain ⟨later, tail, done⟩ := bind_eq_ok done
    obtain rfl := Except.ok.inj done
    exact .cons head (ih tail)

theorem exists_of_mapM {f : α → Except ε β} {entries : List α} {results : List β}
    (done : entries.mapM f = .ok results) {a : α} (member : a ∈ entries) :
    ∃ b ∈ results, f a = .ok b :=
  exists_of_forall₂ (forall₂_of_mapM done) member

theorem exists_mem_of_mapM {f : α → Except ε β} {entries : List α} {results : List β}
    (done : entries.mapM f = .ok results) {b : β} (member : b ∈ results) :
    ∃ a ∈ entries, f a = .ok b :=
  exists_of_forall₂ (forall₂_of_mapM done).flip member

theorem exists_mapM_eq_ok {f : α → Except ε β} {entries : List α}
    (each : ∀ a ∈ entries, ∃ b, f a = .ok b) : ∃ results, entries.mapM f = .ok results := by
  induction entries with
  | nil => exact ⟨[], rfl⟩
  | cons first rest ih =>
    obtain ⟨⟨b, head⟩, each⟩ := List.forall_mem_cons.mp each
    obtain ⟨later, tail⟩ := ih each
    exact ⟨b :: later, by rw [List.mapM_cons, head, tail]; rfl⟩

theorem forall_of_mapM {f : α → Except ε β} {entries : List α} {results : List β} {holds : β → Prop}
    (done : entries.mapM f = .ok results) (each : ∀ a b, f a = .ok b → holds b) :
    ∀ b ∈ results, holds b := by
  have paired := forall₂_of_mapM done
  clear done
  induction paired with
  | nil => simp
  | cons head _ ih => exact List.forall_mem_cons.mpr ⟨each _ _ head, ih⟩

theorem map_of_mapM {γ : Type} {f : α → Except ε β} {entries : List α} {results : List β}
    {before : α → γ} {after : β → γ} (done : entries.mapM f = .ok results)
    (each : ∀ a b, f a = .ok b → after b = before a) : results.map after = entries.map before := by
  have paired := forall₂_of_mapM done
  clear done
  induction paired with
  | nil => rfl
  | cons head _ ih => rw [List.map_cons, List.map_cons, each _ _ head, ih]

theorem mapError_eq_ok {δ : Type} {result : Except ε α} {f : ε → δ} {a : α}
    (done : result.mapError f = .ok a) : result = .ok a := by
  cases result with
  | error fault => cases done
  | ok b => rw [Except.ok.inj done]

end Results

/-- Every node that is evaluated contributes its edges. -/
theorem Expr.Occurs.edges {body e : Expr} {edges : List Edge} (occurs : body.Occurs e)
    (extracted : body.edges = .ok edges) : ∃ own, e.ownEdges = .ok own ∧ own ⊆ edges := by
  obtain ⟨lists, each, rfl⟩ := map_eq_ok extracted
  obtain ⟨own, member, found⟩ := exists_of_mapM each occurs.mem_nodes
  exact ⟨own, found, fun edge inside => List.mem_flatten.mpr ⟨own, member, inside⟩⟩

/-! A member of several definitions covers each of them. -/

namespace MemberSummary

/-- The first member has the edges of the second one, and a body if that has one. -/
structure Covers (whole part : MemberSummary) : Prop where
  selector : whole.selector = part.selector
  edges : ∀ edge ∈ part.dependencies, edge ∈ whole.dependencies
  body : part.isAbstract = false → whole.isAbstract = false

theorem Covers.refl (m : MemberSummary) : m.Covers m := ⟨rfl, fun _ => id, id⟩

theorem Covers.trans {first second third : MemberSummary} (upper : first.Covers second)
    (lower : second.Covers third) : first.Covers third where
  selector := upper.selector.trans lower.selector
  edges edge member := upper.edges edge (lower.edges edge member)
  body concrete := upper.body (lower.body concrete)

theorem covers_merge_left (first second : MemberSummary) : (first.merge second).Covers first where
  selector := rfl
  edges edge member := by
    rw [merge, Dependencies.mem_union]
    exact .inl member
  body concrete := by simp [merge, concrete]

theorem covers_merge_right {first second : MemberSummary} (same : first.selector = second.selector) :
    (first.merge second).Covers second where
  selector := same
  edges edge member := by
    rw [merge, Dependencies.mem_union]
    exact .inr member
  body concrete := by simp [merge, concrete]

end MemberSummary

namespace UnitSummary

theorem addMember_covers (members : List MemberSummary) (m : MemberSummary) :
    (∃ whole ∈ addMember members m, whole.Covers m) ∧
      ∀ old ∈ members, ∃ whole ∈ addMember members m, whole.Covers old := by
  unfold addMember
  induction members with
  | nil => simp [MemberSummary.Covers.refl]
  | cons first rest ih =>
    rw [Ascending.upsert]
    split
    · refine ⟨⟨m, List.mem_cons_self, .refl m⟩, fun old member => ?_⟩
      exact ⟨old, List.mem_cons_of_mem _ member, .refl old⟩
    · next same =>
      have same : m.selector = first.selector := Std.LawfulEqOrd.eq_of_compare same
      refine ⟨⟨_, List.mem_cons_self, MemberSummary.covers_merge_right same.symm⟩, ?_⟩
      intro old member
      rcases List.mem_cons.mp member with rfl | member
      · exact ⟨_, List.mem_cons_self, MemberSummary.covers_merge_left _ _⟩
      · exact ⟨old, List.mem_cons_of_mem _ member, .refl old⟩
    · obtain ⟨⟨whole, inside, covers⟩, others⟩ := ih
      refine ⟨⟨whole, List.mem_cons_of_mem _ inside, covers⟩, ?_⟩
      intro old member
      rcases List.mem_cons.mp member with rfl | member
      · exact ⟨old, List.mem_cons_self, .refl old⟩
      · obtain ⟨whole, inside, covers⟩ := others old member
        exact ⟨whole, List.mem_cons_of_mem _ inside, covers⟩

theorem foldl_addMember_covers (added members : List MemberSummary) :
    ∀ m, m ∈ members ∨ m ∈ added → ∃ whole ∈ added.foldl addMember members, whole.Covers m := by
  induction added generalizing members with
  | nil => exact fun m member => ⟨m, member.resolve_right List.not_mem_nil, .refl m⟩
  | cons first rest ih =>
    intro m member
    obtain ⟨new, old⟩ := addMember_covers members first
    have next : (∃ whole ∈ addMember members first, whole.Covers m) ∨ m ∈ rest := by
      rcases member with member | member
      · exact .inl (old m member)
      · rcases List.mem_cons.mp member with rfl | later
        · exact .inl new
        · exact .inr later
    rcases next with ⟨whole, inside, covers⟩ | later
    · obtain ⟨final, inside, above⟩ := ih (addMember members first) whole (.inl inside)
      exact ⟨final, inside, above.trans covers⟩
    · exact ih (addMember members first) m (.inr later)

end UnitSummary

theorem MemberSummary.ofEdges_eq_ok {selector : Selector} {isAbstract isExported : Bool}
    {edges : Except CallFault (List Edge)} {m : MemberSummary}
    (done : ofEdges selector isAbstract isExported edges = .ok m) :
    ∃ found, edges = .ok found ∧ m = ⟨selector, isAbstract, isExported, .ofEdges found⟩ := by
  cases edges with
  | error fault => cases done
  | ok found => exact ⟨found, rfl, (Except.ok.inj done).symm⟩

/-- The record of a member with this body. -/
structure MemberSummary.Records (m : MemberSummary) (selector : Selector) (body : Expr) : Prop where
  selected : m.selector = selector
  concrete : m.isAbstract = false
  edges : ∃ edges, body.edges = .ok edges ∧ ∀ edge ∈ edges, edge ∈ m.dependencies

theorem MemberSummary.Covers.records {whole part : MemberSummary} (covers : whole.Covers part)
    {selector : Selector} {body : Expr} (records : part.Records selector body) :
    whole.Records selector body where
  selected := covers.selector.trans records.selected
  concrete := covers.body records.concrete
  edges := by
    obtain ⟨edges, extracted, recorded⟩ := records.edges
    exact ⟨edges, extracted, fun edge member => covers.edges edge (recorded edge member)⟩

theorem MemberSummary.records_ofEdges {selector : Selector} {isExported : Bool} {found : List Edge}
    {body : Expr} {edges : List Edge} (extracted : body.edges = .ok edges) (inside : edges ⊆ found) :
    Records ⟨selector, false, isExported, .ofEdges found⟩ selector body :=
  ⟨rfl, rfl, edges, extracted, fun _ member => Dependencies.mem_ofEdges.mpr (inside member)⟩

namespace UnitDef

/-- The bodies in a unit, under the selectors of the members that they belong to. -/
inductive HasBody (u : UnitDef) : Selector → Expr → Prop
  | method {m body} : m ∈ u.methods → m.body = some body → HasBody u m.selector body
  | getter {p body} : p ∈ u.properties → p.getter = some body → HasBody u p.selector body
  | setter {p setter} : p ∈ u.properties → p.setter = some setter → HasBody u p.selector setter.body
  | topLevel {e body} : e ∈ u.exports → e.target = .function body → HasBody u .topLevelExports body

variable {u : UnitDef} {selector : Selector} {body : Expr}

theorem records_method {m : MethodDef} {summary : MemberSummary} (done : m.summary = .ok summary)
    (concrete : m.body = some body) : summary.Records m.selector body := by
  obtain ⟨found, gathered, rfl⟩ := MemberSummary.ofEdges_eq_ok done
  obtain ⟨edges, extracted, joined⟩ := bind_eq_ok gathered
  obtain rfl := Except.ok.inj joined
  rw [concrete] at extracted ⊢
  exact MemberSummary.records_ofEdges extracted (List.subset_append_right ..)

theorem records_getter {p : PropertyDef} {summary : MemberSummary} (done : p.summary = .ok summary)
    (concrete : p.getter = some body) : summary.Records p.selector body := by
  obtain ⟨found, gathered, rfl⟩ := MemberSummary.ofEdges_eq_ok done
  obtain ⟨edges, extracted, gathered⟩ := bind_eq_ok gathered
  obtain ⟨others, _, joined⟩ := bind_eq_ok gathered
  obtain rfl := Except.ok.inj joined
  rw [concrete] at extracted
  exact MemberSummary.records_ofEdges extracted (List.subset_append_left ..)

theorem records_setter {p : PropertyDef} {setter : Setter} {summary : MemberSummary}
    (done : p.summary = .ok summary) (concrete : p.setter = some setter) :
    summary.Records p.selector setter.body := by
  obtain ⟨found, gathered, rfl⟩ := MemberSummary.ofEdges_eq_ok done
  obtain ⟨others, _, gathered⟩ := bind_eq_ok gathered
  obtain ⟨edges, setterEdges, joined⟩ := bind_eq_ok gathered
  obtain rfl := Except.ok.inj joined
  simp only [PropertyDef.setterEdges, concrete] at setterEdges
  obtain ⟨own, extracted, rfl⟩ := map_eq_ok setterEdges
  apply MemberSummary.records_ofEdges extracted
  exact fun edge member => List.mem_append_right _ (List.mem_append_right _ member)

theorem records_topLevel {owner : Name} {exports : List ExportDef} {e : ExportDef}
    {summary : MemberSummary} (done : ExportDef.summary owner exports = .ok summary)
    (member : e ∈ exports) (concrete : e.target = .function body) :
    summary.Records .topLevelExports body := by
  obtain ⟨found, gathered, rfl⟩ := MemberSummary.ofEdges_eq_ok done
  obtain ⟨lists, each, rfl⟩ := map_eq_ok gathered
  obtain ⟨edges, inside, extracted⟩ := exists_of_mapM each member
  simp only [ExportDef.edges, concrete] at extracted
  apply MemberSummary.records_ofEdges extracted
  exact fun edge own => List.mem_flatten.mpr ⟨edges, inside, own⟩

theorem memberSummaries_eq_ok {members : List MemberSummary}
    (done : u.memberSummaries = .ok members) :
    ∃ methods properties exports, u.methods.mapM MethodDef.summary = .ok methods ∧
      u.properties.mapM PropertyDef.summary = .ok properties ∧ u.exportSummaries = .ok exports ∧
      methods ++ properties ++ exports = members := by
  obtain ⟨methods, methodsDone, done⟩ := bind_eq_ok done
  obtain ⟨properties, propertiesDone, done⟩ := bind_eq_ok done
  obtain ⟨exports, exportsDone, done⟩ := bind_eq_ok done
  exact ⟨methods, properties, exports, methodsDone, propertiesDone, exportsDone, Except.ok.inj done⟩

/-- Each body is recorded in a summary of its own definition. -/
theorem HasBody.summarized (hasBody : u.HasBody selector body) {members : List MemberSummary}
    (done : u.memberSummaries = .ok members) : ∃ m ∈ members, m.Records selector body := by
  obtain ⟨methods, properties, exports, methodsDone, propertiesDone, exportsDone, rfl⟩ :=
    memberSummaries_eq_ok done
  cases hasBody with
  | method member concrete =>
    obtain ⟨m, inside, summarized⟩ := exists_of_mapM methodsDone member
    exact ⟨m, by simp [inside], records_method summarized concrete⟩
  | getter member concrete =>
    obtain ⟨m, inside, summarized⟩ := exists_of_mapM propertiesDone member
    exact ⟨m, by simp [inside], records_getter summarized concrete⟩
  | setter member concrete =>
    obtain ⟨m, inside, summarized⟩ := exists_of_mapM propertiesDone member
    exact ⟨m, by simp [inside], records_setter summarized concrete⟩
  | topLevel member concrete =>
    unfold exportSummaries at exportsDone
    rw [if_neg (by simpa using List.ne_nil_of_mem member)] at exportsDone
    obtain ⟨m, summarized, rfl⟩ := map_eq_ok exportsDone
    exact ⟨m, by simp, records_topLevel summarized member concrete⟩

theorem exists_eq_of_summary {summary : UnitSummary} (done : u.summary = .ok summary) :
    ∃ members, u.memberSummaries = .ok members ∧
      summary = {
        name := u.name, kind := u.kind, superclass := u.superclass, interfaces := u.interfaces,
        fieldClasses := u.fieldClasses, members := members.foldl UnitSummary.addMember [],
        isExported := u.isExported, exportNames := u.exports.map ExportDef.name } := by
  obtain ⟨members, found, joined⟩ := bind_eq_ok done
  exact ⟨members, found, (Except.ok.inj joined).symm⟩

theorem summary_eq_ok {summary : UnitSummary} (done : u.summary = .ok summary) :
    ∃ members, u.memberSummaries = .ok members ∧ summary.name = u.name ∧ summary.kind = u.kind ∧
      summary.members = members.foldl UnitSummary.addMember [] := by
  obtain ⟨members, found, rfl⟩ := exists_eq_of_summary done
  exact ⟨members, found, rfl, rfl, rfl⟩

theorem ascending_summary {summary : UnitSummary} (done : u.summary = .ok summary) :
    Ascending.By MemberSummary.selector summary.members := by
  obtain ⟨members, _, _, _, same⟩ := summary_eq_ok done
  rw [same]
  exact Ascending.by_foldl_upsert (fun old _ => show (old.merge _).selector = old.selector from rfl)
    members List.Pairwise.nil

/-- A body is recorded in the member that its selector finds. -/
theorem HasBody.member? (hasBody : u.HasBody selector body) {summary : UnitSummary}
    (done : u.summary = .ok summary) :
    ∃ m, summary.member? selector = some m ∧ m.Records selector body := by
  obtain ⟨members, found, _, _, same⟩ := summary_eq_ok done
  obtain ⟨part, inside, records⟩ := hasBody.summarized found
  obtain ⟨whole, member, covers⟩ := UnitSummary.foldl_addMember_covers members [] part (.inr inside)
  have recorded := covers.records records
  refine ⟨whole, ?_, recorded⟩
  exact (UnitSummary.member?_eq_some_iff (ascending_summary done)).mpr
    ⟨same ▸ member, recorded.selected⟩

theorem exists_summary {units : List UnitDef} {summaries : List UnitSummary}
    (done : UnitDef.summaries units = .ok summaries) (member : u ∈ units) :
    ∃ summary ∈ summaries, u.summary = .ok summary := by
  obtain ⟨summary, inside, found⟩ := exists_of_mapM done member
  exact ⟨summary, inside, mapError_eq_ok found⟩

theorem exists_definition {units : List UnitDef} {summaries : List UnitSummary}
    (done : UnitDef.summaries units = .ok summaries) {summary : UnitSummary}
    (member : summary ∈ summaries) : ∃ u ∈ units, u.summary = .ok summary := by
  obtain ⟨u, inside, found⟩ := exists_mem_of_mapM done member
  exact ⟨u, inside, mapError_eq_ok found⟩

theorem exists_summaries {units : List UnitDef}
    (each : ∀ u ∈ units, ∃ summary, u.summary = .ok summary) :
    ∃ summaries, UnitDef.summaries units = .ok summaries := by
  refine exists_mapM_eq_ok fun u member => ?_
  obtain ⟨summary, found⟩ := each u member
  exact ⟨summary, by rw [found]; rfl⟩

theorem ascending_summaries {units : List UnitDef} {summaries : List UnitSummary}
    (done : UnitDef.summaries units = .ok summaries) :
    ∀ summary ∈ summaries, Ascending.By MemberSummary.selector summary.members :=
  forall_of_mapM done fun _ _ found => ascending_summary (mapError_eq_ok found)

theorem map_name_summaries {units : List UnitDef} {summaries : List UnitSummary}
    (done : UnitDef.summaries units = .ok summaries) :
    summaries.map UnitSummary.name = units.map UnitDef.name :=
  map_of_mapM done fun _ _ found => (summary_eq_ok (mapError_eq_ok found)).choose_spec.2.1

end UnitDef

end TreeShake
