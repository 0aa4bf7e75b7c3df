import TreeShake.Proofs.Settlement.Additions

set_option autoImplicit false

/-!
Every operation settles what it starts. The proofs follow the calls: an operation adds the duty of
the fact that it writes down to those left open, the operations that it calls leave no further duty
open, and their effects pay for the duty in the end.
-/

namespace TreeShake.State

variable {p : Program} {o : Options} {due : Set Duty} {s t : State}

theorem Idle.insert (idle : Idle due) {duty : Duty} (other : ∀ name, duty ≠ .use name .initialized) :
    Idle (insert duty due) := by
  intro name left
  rcases left with same | left
  · exact other name same.symm
  · exact idle name left

theorem Settled.reached_of_initialized (settled : Settled p o due s) (idle : Idle due) {name : Name}
    (initialized : s.has name .initialized = true) : s.has name .reached = true := by
  rcases settled.duties (.use name .initialized) initialized with left | settles
  · exact absurd left (idle name)
  · exact settles.1

theorem Settled.reached_of_inherits (settled : Settled p o due s) {name ancestor : Name}
    (reached : s.has name .reached = true) (inherits : p.Inherits name ancestor) :
    s.has ancestor .reached = true := by
  induction inherits with
  | refl => exact reached
  | tail _ parent ih => exact (settled.above _ ih).1 _ parent

theorem scheduled_enqueue (m : Slot) : (s.enqueue p m).Scheduled p m := by
  intro declared
  obtain ⟨fact, live⟩ := Program.isSome_member?_iff.mp declared
  unfold enqueue
  split
  · split
    · next undeclared => simp [Program.liveness?, undeclared] at live
    · simp [TotalMap.get_set]
    · simp [TotalMap.get_set]
  · next seen => exact seen

theorem ensures_activate {name : Name} (present : p.contains name = true) :
    Ensures p o (activate p o name) fun s => s.has name .initialized = true := by
  intro due s _ settled
  unfold activate
  split
  · next known => exact ⟨settled, known⟩
  · obtain ⟨reachedSettled, reached⟩ := (settled.mark name .initialized nofun).reach present
    have grows : Grows (s.mark name .initialized) ((s.mark name .initialized).reach p o name) :=
      (spreads_reach ..).grows
    have initialized := grows.uses _ _ (has_mark_self name .initialized)
    dsimp only
    split
    · next m found =>
      obtain rfl : m.owner = name := Program.owner_of_slot? found
      have later := grows_enqueue (p := p) ((s.mark m.owner .initialized).reach p o m.owner) m
      have initialized := later.uses _ _ initialized
      have reached := later.uses _ _ reached
      have member := (reachedSettled.enqueue m).payOne ⟨fun _ => initialized, fun _ => reached⟩
      refine ⟨member.payOne ⟨reached, fun other same => ?_⟩, initialized⟩
      rw [← Option.some.inj (found.symm.trans same)]
      exact scheduled_enqueue m
    · next missing =>
      refine ⟨reachedSettled.payOne ⟨reached, fun other same => ?_⟩, initialized⟩
      exact absurd (missing.symm.trans same) nofun

theorem ensures_schedule (m : Slot) : Ensures p o (schedule p o m) (Scheduled p m) := by
  intro due s idle settled
  unfold schedule
  split
  · have enqueued := settled.enqueue m
    split
    · next undeclared =>
      refine ⟨settled, fun declared => ?_⟩
      obtain ⟨fact, live⟩ := Program.isSome_member?_iff.mp declared
      simp [Program.liveness?, undeclared] at live
    · next declaration =>
      obtain ⟨reachedSettled, reached⟩ := enqueued.reach (Program.contains_of_abstract? declaration)
      refine ⟨reachedSettled.payOne ⟨?_, fun _ => reached⟩, ?_⟩
      · simp [declaration]
      · exact (spreads_reach ..).grows.scheduled (scheduled_enqueue m)
    · next body =>
      obtain ⟨activeSettled, initialized⟩ :=
        ensures_activate (Program.contains_of_abstract? body) _ _ (idle.insert (by simp)) enqueued
      refine ⟨activeSettled.payOne ⟨fun _ => initialized, ?_⟩, ?_⟩
      · simp [body]
      · exact (spreads_activate ..).grows.scheduled (scheduled_enqueue m)
  · next seen => exact ⟨settled, fun _ => seen⟩

theorem lists_report (defect : Defect) (referrer : Referrer) :
    (s.report o defect referrer).Lists o defect := by
  intro reporting
  unfold report
  simp only [reporting, Diagnostic.entries_record]
  exact Diagnostic.listed_record.mpr (.inl rfl)

theorem mentions_report (defect : Defect) (referrer : Referrer) :
    (s.report o defect referrer).Mentions o defect referrer := by
  intro reporting
  unfold report
  simp only [reporting, Diagnostic.entries_record]
  exact Diagnostic.mentioned_record.mpr (.inl ⟨rfl, rfl⟩)

theorem ensures_resolve (cls : Name) (site : CallSite) :
    Ensures p o (resolve p o cls site) (Resolved p o cls site.method) := by
  intro due s idle settled
  have asked := settled.asks (asks_lookup cls site.method s)
  unfold resolve Resolved
  dsimp only
  rw [settled.fresh.lookup_fst]
  cases p.target? cls site.method with
  | some m => exact ensures_schedule m due _ idle asked
  | none =>
    dsimp only
    split
    · next host => exact ⟨asked, fun known => by simp [host] at known⟩
    · exact ⟨asked.report .., fun _ => lists_report _ _⟩

theorem ensures_callExact (owner : Name) (selector : Selector) (referrer : Referrer) :
    Ensures p o (callExact p o owner selector referrer) (Answered p o owner selector) := by
  intro due s idle settled
  have asked := settled.asks (asks_lookupExact owner selector s)
  unfold callExact Answered
  dsimp only
  rw [settled.fresh.lookupExact_fst]
  cases target : p.exactTarget? owner selector with
  | some m => exact ensures_schedule m due _ idle asked
  | none =>
    dsimp only
    split
    · next host =>
      have call : p.ExactCall owner selector (.use owner .reached) :=
        Program.exactCall_iff.mpr (.inr ⟨target, host, rfl⟩)
      exact asked.reach call.declaredFact
    · exact ⟨asked.report .., lists_report _ _⟩

theorem ensures_keepContract (receiver method : Name) :
    Ensures p o (keepContract p o receiver method) fun s =>
      o.keepContracts = true → ∀ m, p.contract? receiver method = some m → s.Scheduled p m := by
  intro due s idle settled
  unfold keepContract
  split
  · next kept =>
    have asked := settled.ask receiver
    dsimp only
    rw [settled.fresh.lineage_fst, ← Program.contract?]
    cases found : p.contract? receiver method with
    | none =>
      refine ⟨asked, fun _ m same => ?_⟩
      cases same
    | some m =>
      obtain ⟨scheduledSettled, scheduled⟩ := ensures_schedule m due _ idle asked
      refine ⟨scheduledSettled, fun _ other same => ?_⟩
      rw [← Option.some.inj same]
      exact scheduled
  · next dropped => exact ⟨settled, fun kept => absurd kept dropped⟩

/-- A sequence of operations has all their effects, if these last. -/
theorem Ensures.foldl {α : Type} {op : α → State → State} {effect : α → State → Prop}
    {entries : List α} (each : ∀ a ∈ entries, Ensures p o (op a) (effect a))
    (grows : ∀ a s, Grows s (op a s))
    (lasting : ∀ a s t, Grows s t → effect a s → effect a t) :
    Ensures p o (fun s => entries.foldl (fun s a => op a s) s) fun s =>
      ∀ a ∈ entries, effect a s := by
  induction entries with
  | nil => exact fun due s _ settled => ⟨settled, fun a member => absurd member List.not_mem_nil⟩
  | cons first rest ih =>
    intro due s idle settled
    obtain ⟨firstSettled, firstEffect⟩ := each first List.mem_cons_self due s idle settled
    obtain ⟨restSettled, restEffect⟩ :=
      ih (fun a member => each a (List.mem_cons_of_mem _ member)) due _ idle firstSettled
    refine ⟨restSettled, fun a member => ?_⟩
    rcases List.mem_cons.mp member with rfl | member
    · exact lasting a _ _ (grows_foldl grows rest _) firstEffect
    · exact restEffect a member

/-- A class below an ancestor that is reached meets the calls on it. -/
theorem Settled.instantiateBelow (settled : Settled p o due s) (idle : Idle due) {ancestor : Name}
    (cls : Name) (reached : s.has ancestor .reached = true) :
    Settled p o due (s.instantiateBelow p o cls ancestor) ∧
      (s.instantiateBelow p o cls ancestor).has ancestor .dataAccessed = true ∧
      cls ∈ (s.instantiateBelow p o cls ancestor).subclasses.get ancestor := by
  let added := (s.mark ancestor .dataAccessed).addSubclass ancestor cls
  let sites := added.calls ancestor
  have marked : Settled p o due (s.mark ancestor .dataAccessed) :=
    (settled.mark ancestor .dataAccessed nofun).payOne ((grows_mark ..).uses _ _ reached)
  have idleBelow : Idle ({duty | ∃ method, duty = .dispatch ancestor method cls} ∪ due) := by
    rintro name (⟨method, same⟩ | left)
    · cases same
    · exact idle name left
  have each : ∀ site ∈ sites, Ensures p o (resolve p o cls site) (Resolved p o cls site.method) :=
    fun site _ => ensures_resolve cls site
  obtain ⟨replayed, resolved⟩ := Ensures.foldl each (fun site s => (spreads_resolve cls site s).grows)
    (fun _ _ _ grows => grows.resolved) _ added idleBelow (marked.addSubclass ancestor cls)
  have replays : Spreads p o added (s.instantiateBelow p o cls ancestor) := spreads_replay ..
  refine ⟨replayed.pay ?_, ?_, ?_⟩
  · -- The log was read before the replay, and the replay does not change it.
    rintro duty (⟨method, rfl⟩ | left) owes
    · obtain ⟨site, member, same⟩ := (called_iff _).mp owes.1
      have member : site ∈ (s.instantiateBelow p o cls ancestor).calls ancestor := member
      rw [calls, replays.logs_eq.1] at member
      rw [← same]
      exact .inr (resolved site member)
    · exact .inl left
  · exact replays.grows.uses _ _ (has_mark_self ancestor .dataAccessed)
  · rw [replays.logs_eq.2]
    exact mem_addSubclass.mpr (.inr ⟨rfl, rfl⟩)

theorem Settled.instantiateAbove (settled : Settled p o due s) (idle : Idle due)
    {ancestors : List Name} (cls : Name) (reached : ∀ a ∈ ancestors, s.has a .reached = true) :
    Settled p o due (ancestors.foldl (fun s a => s.instantiateBelow p o cls a) s) ∧
      ∀ a ∈ ancestors,
        (ancestors.foldl (fun s a => s.instantiateBelow p o cls a) s).has a .dataAccessed = true ∧
        cls ∈ (ancestors.foldl (fun s a => s.instantiateBelow p o cls a) s).subclasses.get a := by
  induction ancestors generalizing s with
  | nil => exact ⟨settled, fun a member => absurd member List.not_mem_nil⟩
  | cons first rest ih =>
    obtain ⟨firstSettled, data, below⟩ :=
      settled.instantiateBelow idle cls (reached first List.mem_cons_self)
    have grows : ∀ a s, Grows s (s.instantiateBelow p o cls a) :=
      fun a s => (evolves_instantiateBelow cls a s).grows
    obtain ⟨restSettled, others⟩ := ih firstSettled fun a member =>
      (grows first s).uses _ _ (reached a (List.mem_cons_of_mem _ member))
    refine ⟨restSettled, fun a member => ?_⟩
    rcases List.mem_cons.mp member with rfl | member
    · have later := grows_foldl grows rest (s.instantiateBelow p o cls a)
      exact ⟨later.uses _ _ data, (later.subclasses a).subset below⟩
    · exact others a member

theorem ensures_instantiate (cls : Name) (referrer : Referrer) :
    Ensures p o (instantiate p o cls referrer) (Instantiated p o cls referrer) := by
  intro due s idle settled
  unfold instantiate Instantiated
  cases known : p.kind? cls with
  | none => exact ⟨settled, nofun⟩
  | some kind =>
    have present := Program.contains_of_kind? known
    dsimp only
    split
    · next refused =>
      refine ⟨settled.report .., fun other same => ?_⟩
      rw [← Option.some.inj same, if_neg (by simpa using refused)]
      exact mentions_report _ _
    · next allowed =>
      have allowed : kind.isInstantiable = true := by simpa using allowed
      split
      · next already =>
        refine ⟨settled, fun other same => ?_⟩
        rw [← Option.some.inj same, if_pos allowed]
        exact already
      · have marked := settled.mark cls .instantiated nofun
        have idleMarked : Idle (insert (Duty.use cls .instantiated) due) := idle.insert (by simp)
        obtain ⟨active, initialized⟩ := ensures_activate present _ _ idleMarked marked
        have reached := active.reached_of_initialized idleMarked initialized
        let above := ((s.mark cls .instantiated).activate p o cls).lineage p cls
        -- The unit is reached, so all its ancestors are.
        have reachedAbove : ∀ a ∈ p.ancestors cls, above.2.has a .reached = true := fun a inherits =>
          active.reached_of_inherits reached ((p.mem_ancestors_iff present).mp inherits)
        obtain ⟨final, data⟩ := (active.ask cls).instantiateAbove idleMarked cls reachedAbove
        have later := grows_foldl
          (fun a s => (evolves_instantiateBelow (p := p) (o := o) cls a s).grows)
          (p.ancestors cls) above.2
        rw [active.fresh.lineage_fst cls]
        refine ⟨final.payOne ⟨⟨kind, known, allowed⟩, later.uses _ _ initialized, data⟩, ?_⟩
        intro other same
        rw [← Option.some.inj same, if_pos allowed]
        have activated := (spreads_activate (p := p) (o := o) cls (s.mark cls .instantiated)).grows
        exact later.uses _ _ (activated.uses _ _ (has_mark_self cls .instantiated))

theorem ensures_call (receiver method : Name) (referrer : Referrer) :
    Ensures p o (call p o receiver method referrer) fun s => s.called receiver method = true := by
  intro due s idle settled
  unfold call
  split
  · next already => exact ⟨settled, already⟩
  · let site : CallSite := ⟨method, referrer⟩
    let logged := s.logCall receiver site
    let kept := logged.keepContract p o receiver method
    have idleCall : Idle (insert (Duty.call receiver method)
        ({duty | ∃ cls, duty = .dispatch receiver method cls} ∪ due)) := by
      rintro name (same | ⟨cls, same⟩ | left)
      · cases same
      · cases same
      · exact idle name left
    obtain ⟨keptSettled, contract⟩ :=
      ensures_keepContract receiver method _ logged idleCall (settled.logCall receiver site)
    have each : ∀ cls ∈ kept.subclasses.get receiver,
        Ensures p o (resolve p o cls site) (Resolved p o cls method) :=
      fun cls _ => ensures_resolve cls site
    obtain ⟨final, resolved⟩ := Ensures.foldl each (fun cls s => (spreads_resolve cls site s).grows)
      (fun _ _ _ grows => grows.resolved) _ kept idleCall keptSettled
    have dispatches : Spreads p o kept
        ((kept.subclasses.get receiver).foldl (fun s cls => s.resolve p o cls site) kept) :=
      spreads_dispatch ..
    have called : logged.called receiver method = true := called_logCall.mpr (.inr ⟨rfl, rfl⟩)
    have keeps : Grows logged kept := (spreads_keepContract ..).grows
    refine ⟨final.pay ?_, dispatches.grows.called (keeps.called called)⟩
    rintro duty (rfl | ⟨cls, rfl⟩ | left) owes
    · exact .inr fun wanted m found => dispatches.grows.scheduled (contract wanted m found)
    · have below := owes.2
      rw [dispatches.logs_eq.2] at below
      exact .inr (resolved cls below)
    · exact .inl left

theorem ensures_loadModule (name : Name) (referrer : Referrer) :
    Ensures p o (loadModule p o name referrer) (Loaded p o name referrer) := by
  intro due s idle settled
  unfold loadModule Loaded
  cases known : p.kind? name with
  | none => exact ⟨settled, nofun⟩
  | some kind =>
    dsimp only
    split
    · next refused =>
      refine ⟨settled.report .., fun other same => ?_⟩
      rw [← Option.some.inj same, if_neg (by simpa using refused)]
      exact mentions_report _ _
    · next allowed =>
      have allowed : kind.isModule = true := by simpa using allowed
      split
      · next already =>
        refine ⟨settled, fun other same => ?_⟩
        rw [← Option.some.inj same, if_pos allowed]
        exact already
      · have marked := settled.mark name .moduleAccessed nofun
        have idleMarked : Idle (insert (Duty.use name .moduleAccessed) due) := idle.insert (by simp)
        obtain ⟨below, instantiated⟩ := ensures_instantiate name referrer _ _ idleMarked marked
        have made := instantiated kind known
        rw [if_pos (UnitKind.isInstantiable_of_isModule allowed)] at made
        obtain ⟨final, answered⟩ :=
          ensures_callExact name (.ctor Name.defaultConstructor) referrer _ _ idleMarked below
        have calls := (spreads_callExact (p := p) (o := o) name (.ctor Name.defaultConstructor)
          referrer ((s.mark name .moduleAccessed).instantiate p o name referrer)).grows
        have makes := (evolves_instantiate (p := p) (o := o) name referrer
          (s.mark name .moduleAccessed)).grows
        refine ⟨final.payOne ⟨⟨kind, known, allowed⟩, calls.uses _ _ made, answered⟩, ?_⟩
        intro other same
        rw [← Option.some.inj same, if_pos allowed]
        exact calls.uses _ _ (makes.uses _ _ (has_mark_self name .moduleAccessed))

theorem ensures_require {name : Name} {referrer : Referrer} {next : State → State}
    {effect : State → Prop} (present : p.contains name = true → Ensures p o next effect) :
    Ensures p o (require p o name referrer next) (Ensured p o name referrer effect) := by
  intro due s idle settled
  unfold require Ensured
  split
  · next known => exact present known due s idle settled
  · exact ⟨settled.report .., mentions_report _ _⟩

theorem ensures_pass : Ensures p o id fun _ => True :=
  fun _ _ _ settled => ⟨settled, trivial⟩

/-- Fields are only added to a unit that is initialized. -/
theorem Settled.accessField (settled : Settled p o due s) {owner : Name}
    (initialized : s.has owner .initialized = true) (access : Access) (field : Name) :
    Settled p o due (s.accessField access owner field) := by
  have grows := grows_accessField s access owner field
  have wider : Settled p o (insert (.fields owner) due) (s.accessField access owner field) := by
    refine settled.grow grows (fun _ reached => reached) (Set.subset_insert ..) ?_ id
    intro duty owes
    rcases owes_accessField owes with owed | rfl
    · exact .inl owed
    · exact .inr (Set.mem_insert ..)
  exact wider.payOne (grows.uses _ _ initialized)

theorem ensures_accessField {owner : Name} (present : p.contains owner = true) (access : Access)
    (field : Name) :
    Ensures p o (fun s => (s.activate p o owner).accessField access owner field) fun s =>
      field ∈ (s.fields access).get owner := by
  intro due s idle settled
  obtain ⟨active, initialized⟩ := ensures_activate present due s idle settled
  exact ⟨active.accessField initialized access field,
    mem_accessField _ |>.mpr (.inl ⟨rfl, rfl, rfl⟩)⟩

theorem Settled.useGlobal (settled : Settled p o due s) (name : Name) :
    Settled p o due (s.useGlobal name) := by
  refine settled.grow (grows_useGlobal ..) (fun _ reached => reached) (Set.Subset.refl _) ?_ id
  intro duty owes
  cases duty <;> exact .inl owes

/-- A unit that is used through its hierarchy or its data only. -/
theorem ensures_markReach {name : Name} {use : Use} (present : p.contains name = true)
    (light : use = .typeTested ∨ use = .dataAccessed) :
    Ensures p o (fun s => (s.mark name use).reach p o name) fun s => s.has name use = true := by
  intro due s _ settled
  have later : use ≠ .reached := by rcases light with rfl | rfl <;> nofun
  obtain ⟨reachedSettled, reached⟩ := (settled.mark name use later).reach present
  refine ⟨reachedSettled.payOne ?_, (spreads_reach ..).grows.uses _ _ (has_mark_self name use)⟩
  rcases light with rfl | rfl <;> exact reached

theorem ensures_follow (edge : Edge) (referrer : Referrer) :
    Ensures p o (follow p o edge referrer) (Followed p o edge referrer) := by
  cases edge with
  | readField owner field =>
    exact ensures_require fun present => ensures_accessField present .read field
  | writeField owner field =>
    exact ensures_require fun present => ensures_accessField present .write field
  | call receiver method => exact ensures_require fun _ => ensures_call receiver method referrer
  | callExact owner target =>
    exact ensures_require fun _ => ensures_callExact owner target referrer
  | instantiate cls => exact ensures_require fun _ => ensures_instantiate cls referrer
  | loadModule cls => exact ensures_require fun _ => ensures_loadModule cls referrer
  | testInstance cls => exact ensures_require fun present => ensures_markReach present (.inl rfl)
  | classData cls => exact ensures_require fun present => ensures_markReach present (.inr rfl)
  | mention cls => exact ensures_require fun _ => ensures_pass
  | hostGlobal name =>
    intro due s _ settled
    exact ⟨settled.useGlobal name, Ascending.mem_insert.mpr (.inl rfl)⟩

theorem ensures_meet (demand : Demand) (referrer : Referrer) :
    Ensures p o (meet p o demand referrer) (Met p o demand referrer) := by
  cases demand with
  | unit name => exact ensures_require fun _ => ensures_pass
  | code name => exact ensures_require fun present => ensures_activate present
  | edge edge => exact ensures_follow edge referrer

theorem ensures_expand (d : Dependencies) (referrer : Referrer) :
    Ensures p o (expand p o d referrer) fun s =>
      ∀ demand ∈ d.demands, s.Met p o demand referrer :=
  Ensures.foldl (fun demand _ => ensures_meet demand referrer)
    (fun demand s => (evolves_meet demand referrer s).grows) fun _ _ _ grows => grows.met

end TreeShake.State
