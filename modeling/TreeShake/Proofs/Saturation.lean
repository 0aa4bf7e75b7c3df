import TreeShake.Proofs.Settlement.Run

set_option autoImplicit false

/-!
At the end of a run the facts of the state are closed under the rules of liveness. Every duty is
settled by then and no member waits to be expanded, so each rule that applies has been applied.
-/

namespace TreeShake

namespace Dependencies

theorem code_mem_groupDemands {β : Type} {edge : Name → β → Edge} {groups : Groups β}
    {owner : Name} :
    .code owner ∈ groupDemands .code edge groups ↔ owner ∈ groups.map Prod.fst := by
  simp [groupDemands, eq_comm]

/-- A record demands the code of a unit for each group of fields, empty or not. -/
theorem code_mem_demands {d : Dependencies} {owner : Name} :
    .code owner ∈ d.demands ↔ d.Accesses owner := by
  have none : ∀ {β : Type} {edge : Name → β → Edge} {groups : Groups β},
      .code owner ∉ groupDemands .unit edge groups := by simp [groupDemands]
  simp [demands, Accesses, code_mem_groupDemands, none]

theorem mem_heads {β : Type} {groups : Groups β} {owner : Name} {value : β}
    (member : (owner, value) ∈ Groups.pairs groups) : owner ∈ groups.map Prod.fst := by
  obtain ⟨group, inside, pair⟩ := List.mem_flatMap.mp member
  obtain ⟨_, _, same⟩ := List.mem_map.mp pair
  exact List.mem_map.mpr ⟨group, inside, (Prod.mk.inj same).1⟩

end Dependencies

namespace State

variable {p : Program} {config : Config} {o : Options} {s : State}

variable (p) in
/-- The facts that a state holds. -/
def Knows (s : State) : Fact Slot → Prop
  | .use name use => s.has name use = true
  | .body m => s.progress.get m ≠ .unseen ∧ p.abstract? m = some false
  | .contract m => s.progress.get m ≠ .unseen ∧ p.abstract? m = some true
  | .read owner field => field ∈ (s.fields .read).get owner
  | .write owner field => field ∈ (s.fields .write).get owner
  | .global name => name ∈ s.hostGlobals

theorem knows_of_liveness? {m : Slot} {fact : Fact Slot} (live : p.liveness? m = some fact) :
    s.Knows p fact ↔ s.progress.get m ≠ .unseen := by
  rcases Program.liveness?_eq_some_iff.mp live with ⟨body, rfl⟩ | ⟨declaration, rfl⟩
  · simp [Knows, body]
  · simp [Knows, declaration]

theorem knows_access_iff {access : Access} {owner field : Name} :
    s.Knows p (access.fact owner field) ↔ field ∈ (s.fields access).get owner := by
  cases access <;> rfl

variable (p config) in
/-- No duty is open, the seeds have had their effects, and no member waits. -/
structure Complete (s : State) : Prop where
  settled : Settled p config.toOptions ∅ s
  planted : ∀ seed ∈ p.seeds config.roots, s.Planted p config.toOptions seed
  rested : ∀ m, s.progress.get m ≠ .pending

theorem complete_run : Complete p config (run p config.toOptions config.roots) where
  settled := (settled_run config.roots).1
  planted := (settled_run config.roots).2
  rested := not_pending_run config.roots

theorem Ensured.effect {name : Name} {referrer : Referrer} {effect : State → Prop}
    (ensured : s.Ensured p o name referrer effect) (present : p.contains name = true) :
    effect s := by
  unfold Ensured at ensured
  rwa [if_pos present] at ensured

theorem Scheduled.knows {m : Slot} {fact : Fact Slot} (scheduled : s.Scheduled p m)
    (live : p.liveness? m = some fact) : s.Knows p fact :=
  (knows_of_liveness? live).mpr (scheduled (Program.isSome_member?_iff.mpr ⟨fact, live⟩))

theorem Answered.knows {owner : Name} {selector : Selector} {fact : Fact Slot}
    (answered : s.Answered p o owner selector) (call : p.ExactCall owner selector fact) :
    s.Knows p fact := by
  unfold Answered at answered
  rcases Program.exactCall_iff.mp call with ⟨m, target, live⟩ | ⟨missing, host, rfl⟩
  · rw [target] at answered
    exact Scheduled.knows answered live
  · simp only [missing, if_pos host] at answered
    exact answered

theorem Resolved.knows {cls method : Name} {m : Slot} {fact : Fact Slot}
    (resolved : s.Resolved p o cls method) (found : p.target? cls method = some m)
    (live : p.liveness? m = some fact) : s.Knows p fact := by
  unfold Resolved at resolved
  rw [found] at resolved
  exact Scheduled.knows resolved live

theorem Instantiated.has {cls : Name} {referrer : Referrer} {kind : UnitKind}
    (instantiated : s.Instantiated p o cls referrer) (known : p.kind? cls = some kind)
    (allowed : kind.isInstantiable = true) : s.has cls .instantiated = true := by
  have effect := instantiated kind known
  rwa [if_pos allowed] at effect

theorem Loaded.has {name : Name} {referrer : Referrer} {kind : UnitKind}
    (loaded : s.Loaded p o name referrer) (known : p.kind? name = some kind)
    (module : kind.isModule = true) : s.has name .moduleAccessed = true := by
  have effect := loaded kind known
  rwa [if_pos module] at effect

namespace Complete

variable (complete : s.Complete p config)
include complete

theorem reached_iff_seen (m : Slot) :
    s.progress.get m = .reached ↔ s.progress.get m ≠ .unseen := by
  have rested := complete.rested m
  cases found : s.progress.get m with
  | unseen => simp
  | pending => exact absurd found rested
  | reached => simp

theorem settles {duty : Duty} (owes : s.Owes p duty) : s.Settles p config.toOptions duty :=
  complete.settled.settles owes

theorem met {m : Slot} {demand : Demand} (body : s.Knows p (.body m))
    (member : demand ∈ (p.dependencies m).demands) :
    s.Met p config.toOptions demand (.member (p.ref m)) := by
  have owes : s.Owes p (.expansion m) := ⟨(complete.reached_iff_seen m).mpr body.1, body.2⟩
  exact complete.settles owes demand member

theorem followed {m : Slot} {edge : Edge} (body : s.Knows p (.body m))
    (member : edge ∈ p.dependencies m) : s.Followed p config.toOptions edge (.member (p.ref m)) :=
  complete.met body (Dependencies.edge_mem_demands.mpr member)

theorem resolved {m : Slot} {receiver method cls : Name} (body : s.Knows p (.body m))
    (member : .call receiver method ∈ p.dependencies m) (made : s.has cls .instantiated = true)
    (inherits : p.Inherits cls receiver) : s.Resolved p config.toOptions cls method := by
  obtain ⟨⟨kind, known, _⟩, _, data⟩ :=
    complete.settles (show s.Owes p (.use cls .instantiated) from made)
  have present := Program.contains_of_kind? known
  have above := (p.mem_ancestors_iff present).mpr inherits
  have followed := complete.followed body member
  unfold Followed at followed
  have called := followed.effect (inherits.present present)
  exact complete.settles (show s.Owes p (.dispatch receiver method cls) from
    ⟨called, (data _ above).2⟩)

theorem rooted {root : Root} (member : root ∈ config.roots.toList) :
    s.Rooted p config.toOptions root :=
  complete.planted _ (Program.root_mem_seeds.mpr member)

theorem exported {name : Name} {u : UnitSummary} (found : p.find? name = some u)
    (exported : u.isExported = true) : s.Planted p config.toOptions (.exported name) :=
  complete.planted _ (Program.exported_mem_seeds.mpr ⟨u, found, exported⟩)

theorem exposed {name : Name} {u : UnitSummary} (found : p.find? name = some u)
    (exported : u.isExported = true) (exposes : u.Exposes) :
    if u.kind.isModule then s.has name .moduleAccessed = true
    else u.kind.isInstantiable = true → s.has name .instantiated = true := by
  apply (complete.exported found exported).2.1
  · exact Program.exposes_iff.mpr ⟨u, found, exposes⟩
  · simp [Program.kind?, found]

/-- The facts of a complete state are closed under the rules. -/
theorem closed : p.Closed config (s.Knows p) := by
  intro fact derives
  cases derives with
  | object present =>
    have planted := complete.planted .object (by simp [Program.seeds])
    unfold Planted at planted
    exact planted.effect present
  | boxed kind =>
    have planted := complete.planted (.boxed _) (Program.boxed_mem_seeds.mpr kind)
    exact Instantiated.has planted kind rfl
  | exported found exported => exact (complete.exported found exported).1
  | @exportedMember name u i m fact found exported member offered live =>
    have visible : ⟨name, i⟩ ∈ p.exports name :=
      Program.mem_exports.mpr ⟨rfl, u, found, m, member, offered⟩
    exact Scheduled.knows ((complete.exported found exported).2.2 _ visible) live
  | exposedModule found exported exposes module =>
    have exposed := complete.exposed found exported exposes
    rwa [if_pos module] at exposed
  | exposedClass found exported exposes notModule allowed =>
    have exposed := complete.exposed found exported exposes
    rw [if_neg (by simp [notModule])] at exposed
    exact exposed allowed
  | unitRoot member present =>
    have rooted := complete.rooted member
    unfold Rooted at rooted
    exact rooted.effect present
  | memberRoot member call =>
    have rooted := complete.rooted member
    unfold Rooted at rooted
    exact (rooted.effect call.present).knows call
  | moduleRoot member known module =>
    have rooted := complete.rooted member
    unfold Rooted at rooted
    exact (rooted.effect (Program.contains_of_kind? known)).has known module
  | instanceRoot member known allowed =>
    have rooted := complete.rooted member
    unfold Rooted at rooted
    exact (rooted.effect (Program.contains_of_kind? known)).1.has known allowed
  | constructorRoot member call =>
    have rooted := complete.rooted member
    unfold Rooted at rooted
    exact (rooted.effect call.present).2.knows call
  | access body accesses present =>
    have met := complete.met body (Dependencies.code_mem_demands.mpr accesses)
    unfold Met at met
    exact met.effect present
  | read body member present =>
    have followed := complete.followed body member
    unfold Followed at followed
    exact followed.effect present
  | write body member present =>
    have followed := complete.followed body member
    unfold Followed at followed
    exact followed.effect present
  | call body member made inherits found live =>
    exact (complete.resolved body member made inherits).knows found live
  | contract kept body member found live =>
    have followed := complete.followed body member
    unfold Followed at followed
    have called := followed.effect (Program.contains_of_contract? found)
    have settles := complete.settles (show s.Owes p (.call _ _) from called)
    exact (settles kept _ found).knows live
  | exactCall body member call =>
    have followed := complete.followed body member
    unfold Followed at followed
    exact (followed.effect call.present).knows call
  | instantiate body member known allowed =>
    have followed := complete.followed body member
    unfold Followed at followed
    exact (followed.effect (Program.contains_of_kind? known)).has known allowed
  | loadModule body member known module =>
    have followed := complete.followed body member
    unfold Followed at followed
    exact (followed.effect (Program.contains_of_kind? known)).has known module
  | testInstance body member present =>
    have followed := complete.followed body member
    unfold Followed at followed
    exact followed.effect present
  | classData body member present =>
    have followed := complete.followed body member
    unfold Followed at followed
    exact followed.effect present
  | hostGlobal body member => exact complete.followed body member
  | reached used => exact complete.settled.reached used
  | parent reached above => exact (complete.settled.above _ reached).1 _ above
  | initializer code found live =>
    have settles := complete.settles (show s.Owes p (.use _ .initialized) from code)
    exact (settles.2 _ found).knows live
  | instanceCode made => exact complete.settled.initialized made
  | instanceData made inherits =>
    obtain ⟨⟨kind, known, _⟩, _, data⟩ :=
      complete.settles (show s.Owes p (.use _ .instantiated) from made)
    have above := (p.mem_ancestors_iff (Program.contains_of_kind? known)).mpr inherits
    exact (data _ above).1
  | moduleInstance loaded => exact complete.settled.instantiated loaded
  | moduleConstructor loaded call =>
    have settles := complete.settles (show s.Owes p (.use _ .moduleAccessed) from loaded)
    exact settles.2.2.knows call
  | bodyOwner body => exact (complete.settles (show s.Owes p (.member _) from body.1)).1 body.2
  | contractOwner declaration =>
    exact (complete.settles (show s.Owes p (.member _) from declaration.1)).2 declaration.2

end Complete

end State

end TreeShake
