import TreeShake.Proofs.Settlement.Operations

set_option autoImplicit false

/-!
A run settles everything. Each seed has its effect, each step leaves no duty open, and the effects
last until the queue is empty.
-/

namespace TreeShake

namespace Program

variable {p : Program} {roots : RootSet}

theorem boxed_mem_seeds {name : Name} :
    .boxed name ∈ p.seeds roots ↔ p.kind? name = some .boxedClass := by
  simp only [seeds, List.mem_cons, List.mem_append, List.mem_map, List.mem_filter, reduceCtorEq,
    and_false, exists_false, or_false, false_or, Seed.boxed.injEq, decide_eq_true_eq, kind?,
    Option.map_eq_some_iff, p.find?_eq_some_iff]
  exact ⟨fun ⟨u, inside, named⟩ => ⟨u, ⟨inside.1, named⟩, inside.2⟩,
    fun ⟨u, inside, boxed⟩ => ⟨u, ⟨inside.1, boxed⟩, inside.2⟩⟩

theorem exported_mem_seeds {name : Name} :
    .exported name ∈ p.seeds roots ↔ ∃ u, p.find? name = some u ∧ u.isExported = true := by
  simp only [seeds, List.mem_cons, List.mem_append, List.mem_map, List.mem_filter, reduceCtorEq,
    and_false, exists_false, or_false, false_or, Seed.exported.injEq, p.find?_eq_some_iff]
  exact ⟨fun ⟨u, inside, named⟩ => ⟨u, ⟨inside.1, named⟩, inside.2⟩,
    fun ⟨u, inside, exported⟩ => ⟨u, ⟨inside.1, exported⟩, inside.2⟩⟩

theorem root_mem_seeds {root : Root} : .root root ∈ p.seeds roots ↔ root ∈ roots.toList := by
  simp [seeds]

theorem mem_exports {name : Name} {m : Slot} :
    m ∈ p.exports name ↔ m.owner = name ∧ ∃ u, p.find? name = some u ∧
      ∃ summary, u.members[m.position]? = some summary ∧ summary.isExported = true := by
  unfold exports
  cases p.find? name with
  | none => simp
  | some u =>
    obtain ⟨owner, i⟩ := m
    simp only [Option.map_some, Option.getD_some, List.mem_map, List.mem_filter, Prod.exists,
      List.mem_zipIdx_iff_getElem?, Slot.mk.injEq, Option.some.injEq, exists_eq_left']
    constructor
    · rintro ⟨summary, _, ⟨present, exported⟩, rfl, rfl⟩
      exact ⟨rfl, summary, present, exported⟩
    · rintro ⟨rfl, summary, present, exported⟩
      exact ⟨summary, i, ⟨present, exported⟩, rfl, rfl⟩

theorem exposes_iff {name : Name} :
    p.exposes name = true ↔ ∃ u, p.find? name = some u ∧ u.Exposes := by
  simp [exposes, Option.any_eq_true, UnitSummary.Exposes]

end Program

namespace State

variable {p : Program} {o : Options} {due : Set Duty} {s t : State}

variable (p o) in
def Exposed (name : Name) (s : State) : Prop :=
  p.exposes name = true → ∀ kind, p.kind? name = some kind →
    if kind.isModule then s.has name .moduleAccessed = true
    else kind.isInstantiable = true → s.has name .instantiated = true

variable (p o) in
def Rooted (root : Root) (s : State) : Prop :=
  match root with
  | .unit name => s.Ensured p o name .roots fun s => s.has name .reached = true
  | .member m => s.Ensured p o m.owner .roots (Answered p o m.owner m.selector)
  | .module name => s.Ensured p o name .roots (Loaded p o name .roots)
  | .instantiate cls ctor => s.Ensured p o cls .roots fun s =>
    s.Instantiated p o cls .roots ∧ s.Answered p o cls (.ctor ctor)

variable (p o) in
/-- A seed has its effect. -/
def Planted (seed : Seed) (s : State) : Prop :=
  match seed with
  | .object => s.Ensured p o Name.object .roots fun s => s.has Name.object .reached = true
  | .boxed cls => s.Instantiated p o cls (.unit cls)
  | .exported name => s.has name .reached = true ∧ s.Exposed p name ∧
    ∀ m ∈ p.exports name, s.Scheduled p m
  | .root root => s.Rooted p o root

theorem Grows.exposed (grows : Grows s t) {name : Name} (exposed : s.Exposed p name) :
    t.Exposed p name := by
  intro exposes kind known
  have effect := exposed exposes kind known
  split
  · next module =>
    rw [if_pos module] at effect
    exact grows.uses _ _ effect
  · next other =>
    rw [if_neg other] at effect
    exact fun allowed => grows.uses _ _ (effect allowed)

theorem Grows.rooted (grows : Grows s t) {root : Root} (rooted : s.Rooted p o root) :
    t.Rooted p o root := by
  unfold Rooted at rooted ⊢
  cases root with
  | unit name => exact grows.ensured rooted (grows.uses _ _)
  | member m => exact grows.ensured rooted grows.answered
  | module name => exact grows.ensured rooted grows.loaded
  | instantiate cls ctor =>
    exact grows.ensured rooted fun held => ⟨grows.instantiated held.1, grows.answered held.2⟩

theorem Grows.planted (grows : Grows s t) {seed : Seed} (planted : s.Planted p o seed) :
    t.Planted p o seed := by
  unfold Planted at planted ⊢
  cases seed with
  | object => exact grows.ensured planted (grows.uses _ _)
  | boxed cls => exact grows.instantiated planted
  | exported name =>
    obtain ⟨reached, exposed, members⟩ := planted
    exact ⟨grows.uses _ _ reached, grows.exposed exposed,
      fun m exported => grows.scheduled (members m exported)⟩
  | root root => exact grows.rooted planted

theorem ensures_reach {name : Name} (present : p.contains name = true) :
    Ensures p o (reach p o name) fun s => s.has name .reached = true :=
  fun _ _ _ settled => settled.reach present

theorem ensures_exposeUnit (name : Name) : Ensures p o (exposeUnit p o name) (Exposed p name) := by
  intro due s idle settled
  unfold exposeUnit Exposed
  split
  · next exposes =>
    cases found : p.kind? name with
    | none => exact ⟨settled, nofun⟩
    | some kind =>
      dsimp only
      split
      · next module =>
        obtain ⟨final, loaded⟩ := ensures_loadModule name (.unit name) due s idle settled
        have accessed := loaded kind found
        rw [if_pos module] at accessed
        refine ⟨final, fun _ other same => ?_⟩
        rw [← Option.some.inj same, if_pos module]
        exact accessed
      · next notModule =>
        split
        · next allowed =>
          obtain ⟨final, made⟩ := ensures_instantiate name (.unit name) due s idle settled
          have instantiated := made kind found
          rw [if_pos allowed] at instantiated
          refine ⟨final, fun _ other same => ?_⟩
          rw [← Option.some.inj same, if_neg notModule]
          exact fun _ => instantiated
        · next refused =>
          refine ⟨settled, fun _ other same => ?_⟩
          rw [← Option.some.inj same, if_neg notModule]
          exact fun allowed => absurd allowed refused
  · next hidden => exact ⟨settled, fun exposes => absurd exposes hidden⟩

theorem ensures_exportUnit {name : Name} (present : p.contains name = true) :
    Ensures p o (exportUnit p o name) (Planted p o (.exported name)) := by
  intro due s idle settled
  obtain ⟨reachedSettled, reached⟩ := settled.reach present
  obtain ⟨exposedSettled, exposed⟩ := ensures_exposeUnit name due _ idle reachedSettled
  have each : ∀ m ∈ p.exports name, Ensures p o (schedule p o m) (Scheduled p m) :=
    fun m _ => ensures_schedule m
  have grows : ∀ m s, Grows s (schedule p o m s) := fun m s => (spreads_schedule m s).grows
  obtain ⟨final, members⟩ := Ensures.foldl each grows (fun _ _ _ grows => grows.scheduled)
    due _ idle exposedSettled
  have later := grows_foldl grows (p.exports name) ((s.reach p o name).exposeUnit p o name)
  refine ⟨final, ?_, later.exposed exposed, members⟩
  exact later.uses _ _ ((evolves_exposeUnit ..).grows.uses _ _ reached)

theorem ensures_addRoot (root : Root) : Ensures p o (addRoot p o root) (Rooted p o root) := by
  cases root with
  | unit name => exact ensures_require ensures_reach
  | member m => exact ensures_require fun _ => ensures_callExact m.owner m.selector .roots
  | module name => exact ensures_require fun _ => ensures_loadModule name .roots
  | instantiate cls ctor =>
    refine ensures_require fun _ due s idle settled => ?_
    obtain ⟨made, instantiated⟩ := ensures_instantiate cls .roots due s idle settled
    obtain ⟨final, answered⟩ := ensures_callExact cls (.ctor ctor) .roots due _ idle made
    exact ⟨final, (spreads_callExact ..).grows.instantiated instantiated, answered⟩

theorem ensures_plant {roots : RootSet} {seed : Seed} (member : seed ∈ p.seeds roots) :
    Ensures p o (plant p o seed) (Planted p o seed) := by
  cases seed with
  | object => exact ensures_require ensures_reach
  | boxed cls => exact ensures_instantiate cls (.unit cls)
  | exported name =>
    obtain ⟨u, found, _⟩ := Program.exported_mem_seeds.mp member
    exact ensures_exportUnit (p.contains_of_find? found)
  | root root => exact ensures_addRoot root

theorem settled_initial : Settled p o ∅ {} where
  fresh := fresh_initial
  above name reached := by simp [has, TotalMap.get_empty] at reached
  duties duty owes := by
    cases duty with
    | fields owner =>
      obtain ⟨access, some⟩ := owes
      cases access <;> exact absurd (TotalMap.get_empty owner) some
    | call receiver method | dispatch receiver method cls => simp [Owes, called_iff] at owes
    | use | member | expansion => simp [Owes, has, TotalMap.get_empty] at owes

theorem settled_seeded (roots : RootSet) :
    Settled p o ∅ (seeded p o roots) ∧
      ∀ seed ∈ p.seeds roots, (seeded p o roots).Planted p o seed :=
  Ensures.foldl (fun _ member => ensures_plant member)
    (fun seed s => (evolves_plant seed s).grows) (fun _ _ _ grows => grows.planted)
    ∅ {} (fun _ => Set.notMem_empty _) settled_initial

/-! What follows where no duty is open. -/

namespace Settled

variable (settled : Settled p o ∅ s)
include settled

theorem settles {duty : Duty} (owes : s.Owes p duty) : s.Settles p o duty :=
  (settled.duties duty owes).resolve_left (Set.notMem_empty _)

theorem initialized {cls : Name} (made : s.has cls .instantiated = true) :
    s.has cls .initialized = true :=
  (settled.settles (show s.Owes p (.use cls .instantiated) from made)).2.1

theorem instantiated {name : Name} (loaded : s.has name .moduleAccessed = true) :
    s.has name .instantiated = true :=
  (settled.settles (show s.Owes p (.use name .moduleAccessed) from loaded)).2.1

theorem reached {name : Name} {use : Use} (used : s.has name use = true) :
    s.has name .reached = true := by
  have ofCode : s.has name .initialized = true → s.has name .reached = true := fun code =>
    (settled.settles (show s.Owes p (.use name .initialized) from code)).1
  cases use with
  | reached => exact used
  | typeTested => exact settled.settles (show s.Owes p (.use name .typeTested) from used)
  | dataAccessed => exact settled.settles (show s.Owes p (.use name .dataAccessed) from used)
  | initialized => exact ofCode used
  | instantiated => exact ofCode (settled.initialized used)
  | moduleAccessed => exact ofCode (settled.initialized (settled.instantiated used))

end Settled

/-! A step of the queue. -/

theorem Worklist.grows_pop (valid : Worklist p s) {m : Slot} {rest : List Slot}
    (front : s.queue = m :: rest) : Grows s (s.pop m rest) := by
  have pending := (valid.pending_iff m).mpr (by simp [front])
  apply grows_setProgress
  · rw [pending]
    nofun
  · nofun

theorem Settled.pop (settled : Settled p o ∅ s) (valid : Worklist p s) {m : Slot}
    {rest : List Slot} (front : s.queue = m :: rest) :
    Settled p o (insert (.expansion m) ∅) (s.pop m rest) := by
  have pending := (valid.pending_iff m).mpr (by simp [front])
  refine settled.grow (valid.grows_pop front) (fun _ reached => reached) (Set.subset_insert ..) ?_ id
  intro duty owes
  rcases owes_setProgress owes with owed | rfl | ⟨rfl, _⟩
  · exact .inl owed
  · -- The member was pending, so its own duties are old.
    exact .inl (show s.progress.get m ≠ .unseen by simp [pending])
  · exact .inr (Set.mem_insert ..)

theorem Settled.step (settled : Settled p o ∅ s) (valid : Worklist p s) :
    Settled p o ∅ (s.step p o) := by
  rcases s.step_cases with ⟨_, same⟩ | ⟨m, rest, front, same⟩
  · rwa [same]
  · rw [same]
    have idle : Idle (insert (Duty.expansion m) ∅) :=
      Idle.insert (fun _ => Set.notMem_empty _) (by simp)
    obtain ⟨expanded, met⟩ := ensures_expand (p.dependencies m) (.member (p.ref m)) _ _ idle
      (settled.pop valid front)
    exact expanded.payOne met

theorem Worklist.grows_step (valid : Worklist p s) : Grows s (s.step p o) := by
  rcases s.step_cases with ⟨_, same⟩ | ⟨m, rest, front, same⟩
  · rw [same]
    exact .refl s
  · rw [same]
    exact (valid.grows_pop front).trans (evolves_expand ..).grows

theorem Worklist.grows_steps (valid : Worklist p s) (count : Nat) :
    Grows s (s.steps p o count) := by
  induction count generalizing s with
  | zero => exact .refl s
  | succ count ih => exact valid.grows_step.trans (ih valid.step)

theorem step_of_queue {m : Slot} {rest : List Slot} (front : s.queue = m :: rest) :
    s.step p o = (s.pop m rest).expand p o (p.dependencies m) (.member (p.ref m)) := by
  unfold step
  rw [front]
  rfl

/-- A member that is taken from the queue is live from then on. -/
theorem Worklist.reached_steps (valid : Worklist p s) {m : Slot} {rest : List Slot}
    (front : s.queue = m :: rest) (count : Nat) :
    (s.steps p o (count + 1)).progress.get m = .reached := by
  apply (valid.step.grows_steps count).expanded
  rw [step_of_queue front]
  apply (evolves_expand ..).grows.expanded
  simp [State.pop, TotalMap.get_set]

/-- At the end of a run no duty is open, and all seeds have had their effects. -/
theorem settled_run (roots : RootSet) :
    Settled p o ∅ (run p o roots) ∧ ∀ seed ∈ p.seeds roots, (run p o roots).Planted p o seed := by
  obtain ⟨settled, planted⟩ := settled_seeded (p := p) (o := o) roots
  have valid : Worklist p (seeded p o roots) := worklist_seeded roots
  have final := @steps_induction p o (fun s => Worklist p s ∧ Settled p o ∅ s)
    (fun s ⟨valid, settled⟩ => ⟨valid.step, settled.step valid⟩)
    (seeded p o roots) p.bodyCount ⟨valid, settled⟩
  exact ⟨final.2, fun seed member => (valid.grows_steps p.bodyCount).planted (planted seed member)⟩

end State

end TreeShake
