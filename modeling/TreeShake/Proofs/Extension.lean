import TreeShake.Proofs.Declarations
import TreeShake.Proofs.Justification

set_option autoImplicit false

/-!
No rule has a negative premise on what is live or on what code depends on. So between programs that
declare the same, more dependencies, more exports and more roots make more live, and show more
defects.
-/

namespace TreeShake

/-- The facts that a root asks for, if it finds its target. -/
def Root.asks : Root → List (Fact MemberRef)
  | .unit name => [.use name .reached]
  | .member m => [.body m]
  | .module name => [.use name .moduleAccessed]
  | .instantiate cls ctor => [.use cls .instantiated, .body ⟨cls, .ctor ctor⟩]

/-- Both programs have the same shape, and the second one has all dependencies and exports of the
first and keeps contracts if the first does. Each root of the first is a root of the second, or asks
for what is live there anyway. -/
structure Program.Covered (p : Program) (c : Config) (q : Program) (d : Config) : Prop where
  shape : p.SameShape q
  contracts : c.keepContracts = true → d.keepContracts = true
  roots : ∀ root ∈ c.roots.toList, root ∈ d.roots.toList ∨ ∀ fact ∈ root.asks, q.LiveBy d fact
  demands : ∀ m, (p.dependencies m).demands ⊆ (q.dependencies m).demands
  exported : ∀ name u, p.find? name = some u → u.isExported = true →
    ∃ v, q.find? name = some v ∧ v.isExported = true
  offered : ∀ name, p.exports name ⊆ q.exports name

namespace Program

variable {p : Program}

/-- A class that has a body for a method inherits none. -/
theorem implementation?_of_hasBody {owner method : Name} (body : p.hasBody owner method = true) :
    p.implementation? owner method = some owner := by
  obtain ⟨m, own⟩ := Option.isSome_iff_exists.mp body
  obtain ⟨u, found⟩ := p.contains_iff.mp (contains_of_slot? (body?_eq_some_iff.mp own).1)
  obtain ⟨member, named⟩ := p.find?_eq_some_iff.mp found
  -- There is a unit, so the chain of superclasses starts with the class itself.
  have nearest : ∃ above, p.superclasses owner = u :: above := by
    obtain ⟨rounds, size⟩ := Nat.exists_eq_succ_of_ne_zero
      (show p.size ≠ 0 from Nat.ne_of_gt (List.length_pos_of_mem member))
    simp [superclasses, Hierarchy.superclasses, size, Hierarchy.chain, found]
  obtain ⟨above, nearest⟩ := nearest
  have inherited : p.inherited? owner method = some owner := by
    simp [inherited?, nearest, named, body]
  rw [implementation?, inherited, Option.some_or]

/-- An exact call of a member with a body runs this body. -/
theorem ExactCall.eq_body {m : MemberRef} {slot : Slot} {fact : Fact Slot}
    (found : p.slot? m = some slot) (body : p.abstract? slot = some false)
    (call : p.ExactCall m.owner m.selector fact) : fact = .body slot := by
  have live := liveness?_of_body body
  obtain ⟨owner, selector⟩ := m
  cases call with
  | @inherited method _ _ target same =>
    have own : p.body? owner method = some slot := body?_eq_some_iff.mpr ⟨found, body⟩
    have itself := implementation?_of_hasBody (Option.isSome_iff_exists.mpr ⟨slot, own⟩)
    rw [target?, itself, Option.bind_some, own] at target
    obtain rfl := Option.some.inj target
    exact Option.some.inj (same.symm.trans live)
  | declared _ also same =>
    obtain rfl := Option.some.inj (found.symm.trans also)
    exact Option.some.inj (same.symm.trans live)
  | hostMethod _ undeclared _ =>
    have impossible := found.symm.trans (declares_eq_false_iff.mp undeclared)
    cases impossible
  | hostMember _ undeclared _ =>
    have impossible := found.symm.trans (declares_eq_false_iff.mp undeclared)
    cases impossible

end Program

namespace Program.Covered

variable {p q : Program} {c d : Config} (covered : Covered p c q d)
include covered

theorem edge {m : Slot} {edge : Edge} (member : edge ∈ p.dependencies m) :
    edge ∈ q.dependencies m :=
  Dependencies.edge_mem_demands.mp (covered.demands m (Dependencies.edge_mem_demands.mpr member))

theorem accesses {m : Slot} {owner : Name} (accesses : (p.dependencies m).Accesses owner) :
    (q.dependencies m).Accesses owner :=
  Dependencies.code_mem_demands.mp (covered.demands m (Dependencies.code_mem_demands.mpr accesses))

/-- What an exported unit offers to the host, it still offers. -/
theorem offers {name : Name} {u : UnitSummary} {i : Nat} {m : MemberSummary}
    (found : p.find? name = some u) (exported : u.isExported = true)
    (stands : u.members[i]? = some m) (offered : m.isExported = true) :
    ∃ v, q.find? name = some v ∧ v.isExported = true ∧
      ∃ n, v.members[i]? = some n ∧ n.isExported = true ∧ n.selector = m.selector := by
  obtain ⟨v, other, still⟩ := covered.exported name u found exported
  have listed : ⟨name, i⟩ ∈ p.exports name := mem_exports.mpr ⟨rfl, u, found, m, stands, offered⟩
  obtain ⟨_, w, again, n, inside, visible⟩ := mem_exports.mp (covered.offered name listed)
  obtain rfl : v = w := Option.some.inj (other.symm.trans again)
  have same := covered.shape.map_member? MemberSummary.selector (fun _ => rfl) ⟨name, i⟩
  rw [member?_eq_some_iff.mpr ⟨u, found, stands⟩, member?_eq_some_iff.mpr ⟨v, other, inside⟩] at same
  exact ⟨v, other, still, n, inside, visible, (Option.some.inj same).symm⟩

theorem exposes {name : Name} {u : UnitSummary} (found : p.find? name = some u)
    (exported : u.isExported = true) (exposes : u.Exposes) :
    ∃ v, q.find? name = some v ∧ v.isExported = true ∧ v.Exposes ∧ v.kind = u.kind := by
  obtain ⟨m, member, offered, proper⟩ := exposes
  obtain ⟨i, stands⟩ := List.mem_iff_getElem?.mp member
  obtain ⟨v, other, still, n, inside, visible, same⟩ := covered.offers found exported stands offered
  have kind := covered.shape.kind? name
  rw [kind?, kind?, found, other] at kind
  exact ⟨v, other, still, ⟨n, List.mem_of_getElem? inside, visible, same ▸ proper⟩,
    (Option.some.inj kind).symm⟩

/-- What is live in the second program is closed under the rules of the first. -/
theorem closed : p.Closed c (q.Live d) := by
  intro fact derives
  have alike := covered.shape
  cases derives with
  | object present => exact .derived (.object (alike.contains _ ▸ present))
  | boxed kind => exact .derived (.boxed (alike.kind? _ ▸ kind))
  | exported found exported =>
    obtain ⟨v, other, still⟩ := covered.exported _ _ found exported
    exact .derived (.exported other still)
  | exportedMember found exported stands offered live =>
    obtain ⟨v, other, still, n, inside, visible, _⟩ :=
      covered.offers found exported stands offered
    exact .derived (.exportedMember other still inside visible (alike.liveness? _ ▸ live))
  | exposedModule found exported exposes module =>
    obtain ⟨v, other, still, again, kind⟩ := covered.exposes found exported exposes
    exact .derived (.exposedModule other still again (kind ▸ module))
  | exposedClass found exported exposes notModule allowed =>
    obtain ⟨v, other, still, again, kind⟩ := covered.exposes found exported exposes
    exact .derived (.exposedClass other still again (kind ▸ notModule) (kind ▸ allowed))
  | unitRoot member present =>
    rcases covered.roots _ member with member | asked
    · exact .derived (.unitRoot member (alike.contains _ ▸ present))
    · exact asked _ List.mem_cons_self
  | memberRoot member call =>
    rcases covered.roots _ member with member | asked
    · exact .derived (.memberRoot member (alike.exactCall call))
    · obtain ⟨slot, found, body⟩ := asked _ List.mem_cons_self
      rw [(alike.exactCall call).eq_body found body.declaredFact]
      exact body
  | moduleRoot member known module =>
    rcases covered.roots _ member with member | asked
    · exact .derived (.moduleRoot member (alike.kind? _ ▸ known) module)
    · exact asked _ List.mem_cons_self
  | instanceRoot member known allowed =>
    rcases covered.roots _ member with member | asked
    · exact .derived (.instanceRoot member (alike.kind? _ ▸ known) allowed)
    · exact asked _ List.mem_cons_self
  | constructorRoot member call =>
    rcases covered.roots _ member with member | asked
    · exact .derived (.constructorRoot member (alike.exactCall call))
    · obtain ⟨slot, found, body⟩ := asked _ (List.mem_cons_of_mem _ List.mem_cons_self)
      rw [ExactCall.eq_body found body.declaredFact (alike.exactCall call)]
      exact body
  | access body accesses present =>
    exact .derived (.access body (covered.accesses accesses) (alike.contains _ ▸ present))
  | read body member present =>
    exact .derived (.read body (covered.edge member) (alike.contains _ ▸ present))
  | write body member present =>
    exact .derived (.write body (covered.edge member) (alike.contains _ ▸ present))
  | call body member made inherits found live =>
    exact .derived (.call body (covered.edge member) made (alike.inherits_iff.mp inherits)
      (alike.target? _ _ ▸ found) (alike.liveness? _ ▸ live))
  | contract keeps body member found live =>
    exact .derived (.contract (covered.contracts keeps) body (covered.edge member)
      (alike.contract? _ _ ▸ found) (alike.liveness? _ ▸ live))
  | exactCall body member call =>
    exact .derived (.exactCall body (covered.edge member) (alike.exactCall call))
  | instantiate body member known allowed =>
    exact .derived (.instantiate body (covered.edge member) (alike.kind? _ ▸ known) allowed)
  | loadModule body member known module =>
    exact .derived (.loadModule body (covered.edge member) (alike.kind? _ ▸ known) module)
  | testInstance body member present =>
    exact .derived (.testInstance body (covered.edge member) (alike.contains _ ▸ present))
  | classData body member present =>
    exact .derived (.classData body (covered.edge member) (alike.contains _ ▸ present))
  | hostGlobal body member => exact .derived (.hostGlobal body (covered.edge member))
  | reached used => exact .derived (.reached used)
  | parent reached above => exact .derived (.parent reached (alike.hasParent_iff.mp above))
  | initializer code found live =>
    exact .derived (.initializer code (alike.slot? _ ▸ found) (alike.liveness? _ ▸ live))
  | instanceCode made => exact .derived (.instanceCode made)
  | instanceData made inherits => exact .derived (.instanceData made (alike.inherits_iff.mp inherits))
  | moduleInstance loaded => exact .derived (.moduleInstance loaded)
  | moduleConstructor loaded call => exact .derived (.moduleConstructor loaded (alike.exactCall call))
  | bodyOwner body => exact .derived (.bodyOwner body)
  | contractOwner declaration => exact .derived (.contractOwner declaration)

/-- What is live stays live. -/
theorem live {fact : Fact Slot} (live : p.Live c fact) : q.Live d fact :=
  live.least covered.closed

end Program.Covered

/-- One program with two sets of roots. -/
theorem Program.covered_of_roots {p : Program} {c d : Config}
    (contracts : c.keepContracts = true → d.keepContracts = true)
    (roots : ∀ root ∈ c.roots.toList, root ∈ d.roots.toList ∨ ∀ fact ∈ root.asks, p.LiveBy d fact) :
    p.Covered c p d where
  shape := .refl p
  contracts := contracts
  roots := roots
  demands _ := List.Subset.refl _
  exported _ u found exported := ⟨u, found, exported⟩
  offered _ := List.Subset.refl _

/-- Both programs have the same shape, and the second one, with its roots, has all field classes,
dependencies, exports and roots of the first. It reports defects and keeps contracts if the first
does. -/
structure Program.Below (p : Program) (c : Config) (q : Program) (d : Config) : Prop where
  shape : p.SameShape q
  fieldClasses : ∀ name, p.fieldClasses name ⊆ q.fieldClasses name
  reporting : c.missing = .report → d.missing = .report
  contracts : c.keepContracts = true → d.keepContracts = true
  roots : c.roots.toList ⊆ d.roots.toList
  demands : ∀ m, (p.dependencies m).demands ⊆ (q.dependencies m).demands
  exported : ∀ name u, p.find? name = some u → u.isExported = true →
    ∃ v, q.find? name = some v ∧ v.isExported = true
  offered : ∀ name, p.exports name ⊆ q.exports name

namespace Program.Below

variable {p q : Program} {c d : Config} (below : Below p c q d)
include below

theorem covered : p.Covered c q d where
  shape := below.shape
  contracts := below.contracts
  roots _ member := .inl (below.roots member)
  demands := below.demands
  exported := below.exported
  offered := below.offered

theorem live {fact : Fact Slot} (live : p.Live c fact) : q.Live d fact :=
  below.covered.live live

theorem loads {referrer : Referrer} {name : Name} (loads : p.Loads c (p.Live c) referrer name) :
    q.Loads d (q.Live d) referrer name := by
  cases loads with
  | exposed found exported exposes =>
    obtain ⟨v, other, still, again, _⟩ := below.covered.exposes found exported exposes
    exact .exposed other still again
  | root member => exact .root (below.roots member)
  | code body member =>
    rw [below.shape.ref]
    exact .code (below.live body) (below.covered.edge member)

/-- The defects that show go on to show. -/
theorem refers {defect : Defect} {referrer : Referrer}
    (refers : p.Refers c (p.Live c) defect referrer) : q.Refers d (q.Live d) defect referrer := by
  have alike := below.shape
  have unanswered : ∀ {owner selector}, p.Unanswered owner selector →
      q.Unanswered owner selector := by
    intro owner selector unanswered
    rwa [Unanswered, alike.exactTarget?, alike.hostAnswers] at unanswered
  cases refers with
  | objectMissing missing => exact .objectMissing (alike.contains _ ▸ missing)
  | rootMissing member missing =>
    exact .rootMissing (below.roots member) (alike.contains _ ▸ missing)
  | partMissing reached member missing =>
    rcases List.mem_append.mp member with above | field
    · exact .partMissing (below.live reached) (List.mem_append_left _ (alike.parents _ ▸ above))
        (alike.contains _ ▸ missing)
    · exact .partMissing (below.live reached) (List.mem_append_right _ (below.fieldClasses _ field))
        (alike.contains _ ▸ missing)
  | codeMissing body member named missing =>
    rw [alike.ref]
    exact .codeMissing (below.live body) (below.demands _ member) named
      (alike.contains _ ▸ missing)
  | rootNotModule member known other =>
    exact .rootNotModule (below.roots member) (alike.kind? _ ▸ known) other
  | notModule body member known other =>
    rw [alike.ref]
    exact .notModule (below.live body) (below.covered.edge member) (alike.kind? _ ▸ known) other
  | rootNotInstantiable member known other =>
    exact .rootNotInstantiable (below.roots member) (alike.kind? _ ▸ known) other
  | notInstantiable body member known other =>
    rw [alike.ref]
    exact .notInstantiable (below.live body) (below.covered.edge member) (alike.kind? _ ▸ known) other
  | rootMember member present missing =>
    exact .rootMember (below.roots member) (alike.contains _ ▸ present) (unanswered missing)
  | rootConstructor member present missing =>
    exact .rootConstructor (below.roots member) (alike.contains _ ▸ present) (unanswered missing)
  | exactCall body member present missing =>
    rw [alike.ref]
    exact .exactCall (below.live body) (below.covered.edge member) (alike.contains _ ▸ present)
      (unanswered missing)
  | moduleConstructor loads known module missing =>
    exact .moduleConstructor (below.loads loads) (alike.kind? _ ▸ known) module
      (unanswered missing)
  | call body member made inherits missing known =>
    rw [alike.ref]
    exact .call (below.live body) (below.covered.edge member) (below.live made)
      (alike.inherits_iff.mp inherits) (alike.implementation? _ _ ▸ missing)
      (alike.isHostProvided _ ▸ known)

end Program.Below

/-- One program with more roots. -/
theorem Program.below_of_roots {p : Program} {c d : Config}
    (reporting : c.missing = .report → d.missing = .report)
    (contracts : c.keepContracts = true → d.keepContracts = true)
    (roots : c.roots.toList ⊆ d.roots.toList) : p.Below c p d where
  shape := .refl p
  fieldClasses _ := List.Subset.refl _
  reporting := reporting
  contracts := contracts
  roots := roots
  demands _ := List.Subset.refl _
  exported _ u found exported := ⟨u, found, exported⟩
  offered _ := List.Subset.refl _

/-! Runs on two such programs need not be alike at any step. They are compared by what is live. -/

namespace State

variable {p q : Program} {c d : Config}

/-- A declared member is reached at the end of a run if it is live. -/
theorem reached_run_iff {m : Slot} {fact : Fact Slot} (declared : p.liveness? m = some fact) :
    (run p c.toOptions c.roots).progress.get m = .reached ↔ p.Live c fact := by
  have complete : (run p c.toOptions c.roots).Complete p c := complete_run
  rw [complete.reached_iff_seen, ← knows_of_liveness? declared, knows_run_iff]

variable (below : p.Below c q d)
include below

theorem knows_run_mono {fact : Fact Slot} (knows : (run p c.toOptions c.roots).Knows p fact) :
    (run q d.toOptions d.roots).Knows q fact :=
  knows_run_iff.mpr (below.live (knows_run_iff.mp knows))

theorem reached_run_mono {m : Slot} (declared : (p.member? m).isSome = true)
    (reached : (run p c.toOptions c.roots).progress.get m = .reached) :
    (run q d.toOptions d.roots).progress.get m = .reached := by
  obtain ⟨fact, live⟩ := Program.isSome_member?_iff.mp declared
  rw [reached_run_iff live] at reached
  rw [reached_run_iff (below.shape.liveness? m ▸ live)]
  exact below.live reached

theorem listed_run_mono {defect : Defect}
    (listed : Diagnostic.Listed (run p c.toOptions c.roots).diagnostics.entries defect) :
    Diagnostic.Listed (run q d.toOptions d.roots).diagnostics.entries defect := by
  rw [listed_run_iff] at listed ⊢
  obtain ⟨reporting, referrer, refers⟩ := listed
  exact ⟨below.reporting reporting, referrer, below.refers refers⟩

end State

end TreeShake
