import TreeShake.Proofs.Settlement.Run

set_option autoImplicit false

/-!
Calls and instances meet. A call on a unit is written into the unit's log, and a class that is
instantiated is listed with each of its ancestors. Between the steps of a run these lists are exact:
each instantiated class is listed once with each of its ancestors and nowhere else, and each method
is logged once. Every call on a unit is resolved for every class listed with the unit, whichever of
the two was found first.

Only instantiation changes the lists of classes. All other operations are still: they instantiate
nothing.
-/

namespace TreeShake.State

variable {p : Program} {o : Options} {roots : RootSet} {s t u : State}

/-- The states of a run between its steps: after some of the seeds, or after all seeds and some of
the expansions. -/
inductive Between (p : Program) (o : Options) (roots : RootSet) : State → Prop
  | seeding (count : Nat) :
      Between p o roots (((p.seeds roots).take count).foldl (fun s seed => s.plant p o seed) {})
  | expanding (count : Nat) : Between p o roots ((seeded p o roots).steps p o count)

/-- What holds at the start and survives each seed and each step holds between the steps. -/
theorem Between.induction {holds : State → Prop} (between : Between p o roots s)
    (initial : holds {})
    (plant : ∀ seed ∈ p.seeds roots, ∀ s, holds s → holds (s.plant p o seed))
    (step : ∀ s, holds s → holds (s.step p o)) : holds s := by
  have planted : ∀ seeds ⊆ p.seeds roots, ∀ s, holds s →
      holds (seeds.foldl (fun s seed => s.plant p o seed) s) := by
    intro seeds
    induction seeds with
    | nil => exact fun _ s held => held
    | cons seed rest ih =>
      intro inside s held
      obtain ⟨first, later⟩ := List.cons_subset.mp inside
      exact ih later _ (plant seed first s held)
  cases between with
  | seeding count => exact planted _ (List.take_subset count _) _ initial
  | expanding count => exact steps_induction step count (planted _ (List.Subset.refl _) _ initial)

/-! A list that is read while the state changes. -/

/-- A loop over a list of the state that reads the list anew, by position, in each round. -/
inductive Rereads {α : Type} (entries : State → List α) (act : α → State → State) :
    Nat → State → State → Prop
  | done {i s} : (entries s)[i]? = none → Rereads entries act i s s
  | next {i a s t} : (entries s)[i]? = some a → Rereads entries act (i + 1) (act a s) t →
      Rereads entries act i s t

/-- If the rounds leave the list alone, the loop ends, and it does what a fold over the list as it
was does. -/
theorem rereads_iff {α : Type} {entries : State → List α} {act : α → State → State}
    (steady : ∀ a s, entries (act a s) = entries s) {i : Nat} :
    Rereads entries act i s t ↔ t = ((entries s).drop i).foldl (fun s a => act a s) s := by
  constructor
  · intro loop
    induction loop with
    | done none => rw [List.drop_eq_nil_of_le (List.getElem?_eq_none_iff.mp none), List.foldl_nil]
    | next here _ ih =>
      obtain ⟨inside, here⟩ := List.getElem?_eq_some_iff.mp here
      rw [ih, steady, List.drop_eq_getElem_cons inside, here, List.foldl_cons]
  · rintro rfl
    -- By induction on how much of the list is left.
    generalize left : (entries s).drop i = rest
    induction rest generalizing i s with
    | nil => exact .done (List.getElem?_eq_none (List.drop_eq_nil_iff.mp left))
    | cons a rest ih =>
      have here : (entries s)[i]? = some a := by rw [← List.head?_drop, left, List.head?_cons]
      refine .next here (ih ?_)
      rw [steady, ← List.tail_drop, left, List.tail_cons]

/-- The log is replayed for a new class. No call is logged meanwhile. -/
theorem rereads_instantiateBelow {cls ancestor : Name} :
    Rereads (fun s => s.calls ancestor) (fun site s => s.resolve p o cls site) 0
        ((s.mark ancestor .dataAccessed).addSubclass ancestor cls) t ↔
      t = s.instantiateBelow p o cls ancestor := by
  refine rereads_iff fun site s => ?_
  rw [calls, (spreads_resolve cls site s).logs_eq.1, calls]

/-- The classes below the receiver meet a new call. No instance is made meanwhile. -/
theorem rereads_call {receiver method : Name} {referrer : Referrer}
    (new : s.called receiver method = false) :
    Rereads (fun s => s.subclasses.get receiver)
        (fun cls s => s.resolve p o cls ⟨method, referrer⟩) 0
        ((s.logCall receiver ⟨method, referrer⟩).keepContract p o receiver method) t ↔
      t = s.call p o receiver method referrer := by
  have steady : ∀ cls (s : State),
      (s.resolve p o cls ⟨method, referrer⟩).subclasses.get receiver = s.subclasses.get receiver :=
    fun cls s => by rw [(spreads_resolve cls ⟨method, referrer⟩ s).logs_eq.2]
  rw [rereads_iff steady, call, new]
  rfl

/-! Operations that instantiate nothing. -/

/-- Both states have the same instances, listed alike. -/
structure Still (p : Program) (s t : State) : Prop where
  instances : ∀ cls, t.has cls .instantiated = true ↔ s.has cls .instantiated = true
  subclasses : t.subclasses = s.subclasses
  fresh : s.Fresh p → t.Fresh p := by exact fun held => held

namespace Still

theorem refl (s : State) : Still p s s := ⟨fun _ => Iff.rfl, rfl, id⟩

theorem trans (first : Still p s t) (second : Still p t u) : Still p s u :=
  ⟨fun cls => (second.instances cls).trans (first.instances cls),
    second.subclasses.trans first.subclasses, fun fresh => second.fresh (first.fresh fresh)⟩

theorem foldl {α : Type} {op : α → State → State} (each : ∀ a s, Still p s (op a s))
    (entries : List α) (s : State) : Still p s (entries.foldl (fun s a => op a s) s) := by
  induction entries generalizing s with
  | nil => exact refl s
  | cons first rest ih => exact (each first s).trans (ih _)

end Still

theorem still_asks (asks : Asks p s t) : Still p s t := by
  induction asks with
  | refl => exact .refl s
  | tail _ asked ih =>
    obtain ⟨name, rfl⟩ := asked
    exact ih.trans ⟨fun _ => Iff.rfl, rfl, fun fresh => fresh.ask name⟩

theorem still_mark (name : Name) (use : Use) (other : use ≠ .instantiated) (s : State) :
    Still p s (s.mark name use) := by
  refine ⟨fun cls => ?_, rfl, id⟩
  rw [has_mark]
  constructor
  · rintro (⟨_, same⟩ | held)
    · exact absurd same.symm other
    · exact held
  · exact .inr

theorem still_enqueue (m : Slot) (s : State) : Still p s (s.enqueue p m) := by
  have spreads : Spreads p {} s (s.enqueue p m) := .single (.enqueue ..)
  exact ⟨fun cls => by rw [has_enqueue], spreads.logs_eq.2,
    fun fresh => fresh.evolves spreads.evolves⟩

theorem still_reach (name : Name) (s : State) : Still p s (s.reach p o name) := by
  have spreads : Spreads p o s (s.reach p o name) := spreads_reach name s
  refine ⟨fun cls => ⟨fun held => ?_, spreads.grows.uses cls .instantiated⟩, spreads.logs_eq.2,
    fun fresh => fresh.evolves spreads.evolves⟩
  have owes : (s.reach p o name).Owes p (.use cls .instantiated) := held
  rcases owes_reachFrom owes with owed | ⟨_, same⟩
  · exact owed
  · cases same

theorem still_activate (name : Name) (s : State) : Still p s (s.activate p o name) := by
  unfold activate
  split
  · exact .refl s
  · have marked : Still p s (s.mark name .initialized) := still_mark name .initialized nofun s
    have reached := marked.trans (still_reach (o := o) name _)
    dsimp only
    split
    · exact reached.trans (still_enqueue ..)
    · exact reached

theorem still_schedule (m : Slot) (s : State) : Still p s (s.schedule p o m) := by
  unfold schedule
  split
  · split
    · exact .refl s
    · exact (still_enqueue m s).trans (still_reach m.owner _)
    · exact (still_enqueue m s).trans (still_activate m.owner _)
  · exact .refl s

theorem still_report (defect : Defect) (referrer : Referrer) (s : State) :
    Still p s (s.report o defect referrer) :=
  ⟨fun _ => Iff.rfl, rfl, id⟩

theorem still_resolve (cls : Name) (site : CallSite) (s : State) :
    Still p s (s.resolve p o cls site) := by
  have asked : Still p s (s.lookup p cls site.method).2 := still_asks (asks_lookup ..)
  unfold resolve
  dsimp only
  split
  · exact asked.trans (still_schedule ..)
  · split
    · exact asked
    · exact asked.trans (still_report ..)

theorem still_keepContract (receiver method : Name) (s : State) :
    Still p s (s.keepContract p o receiver method) := by
  have asked : Still p s (s.lineage p receiver).2 := still_asks (.single ⟨receiver, rfl⟩)
  unfold keepContract
  split
  · dsimp only
    split
    · exact asked.trans (still_schedule ..)
    · exact asked
  · exact .refl s

theorem still_callExact (owner : Name) (selector : Selector) (referrer : Referrer) (s : State) :
    Still p s (s.callExact p o owner selector referrer) := by
  have asked : Still p s (s.lookupExact p owner selector).2 := still_asks (asks_lookupExact ..)
  unfold callExact
  dsimp only
  split
  · exact asked.trans (still_schedule ..)
  · split
    · exact asked.trans (still_reach ..)
    · exact asked.trans (still_report ..)

theorem still_call (receiver method : Name) (referrer : Referrer) (s : State) :
    Still p s (s.call p o receiver method referrer) := by
  unfold call
  split
  · exact .refl s
  · have logged : Still p s (s.logCall receiver ⟨method, referrer⟩) := ⟨fun _ => Iff.rfl, rfl, id⟩
    exact (logged.trans (still_keepContract receiver method _)).trans
      (.foldl (fun cls => still_resolve cls ⟨method, referrer⟩) _ _)

/-! Classes are listed with their ancestors. -/

/-- The instantiated classes are listed with their ancestors, once with each, and the ancestors that
are known are right. -/
structure Registered (p : Program) (s : State) : Prop where
  fresh : s.Fresh p
  mem_iff : ∀ ancestor cls, cls ∈ s.subclasses.get ancestor ↔
    s.has cls .instantiated = true ∧ p.Inherits cls ancestor
  nodup : ∀ ancestor, (s.subclasses.get ancestor).Nodup

theorem registered_initial : Registered p {} where
  fresh := fresh_initial
  mem_iff ancestor cls := by simp [has, TotalMap.get_empty]
  nodup ancestor := by simp [TotalMap.get_empty]

theorem Registered.still (registered : Registered p s) (still : Still p s t) : Registered p t where
  fresh := still.fresh registered.fresh
  mem_iff ancestor cls := by
    rw [still.subclasses, still.instances]
    exact registered.mem_iff ancestor cls
  nodup ancestor := by
    rw [still.subclasses]
    exact registered.nodup ancestor

/-- Listing a class with one ancestor. The replay of the log lists nothing. -/
theorem instantiateBelow_subclasses (cls ancestor other : Name) (s : State) :
    (s.instantiateBelow p o cls ancestor).subclasses.get other =
      if ancestor = other then s.subclasses.get other ++ [cls] else s.subclasses.get other := by
  unfold instantiateBelow
  rw [(spreads_replay ..).logs_eq.2]
  simp only [addSubclass, TotalMap.get_modify, mark]

theorem instantiateBelow_instances (cls ancestor other : Name) (s : State) :
    (s.instantiateBelow p o cls ancestor).has other .instantiated = true ↔
      s.has other .instantiated = true := by
  let added := (s.mark ancestor .dataAccessed).addSubclass ancestor cls
  have replayed : Still p added (s.instantiateBelow p o cls ancestor) :=
    .foldl (fun site => still_resolve cls site) _ added
  exact (replayed.instances other).trans
    ((still_mark (p := p) ancestor .dataAccessed nofun s).instances other)

theorem instantiateAbove_subclasses {ancestors : List Name} (distinct : ancestors.Nodup)
    (cls other : Name) (s : State) :
    (ancestors.foldl (fun s a => s.instantiateBelow p o cls a) s).subclasses.get other =
      if other ∈ ancestors then s.subclasses.get other ++ [cls] else s.subclasses.get other := by
  induction ancestors generalizing s with
  | nil => rfl
  | cons first rest ih =>
    obtain ⟨fresh, distinct⟩ := List.nodup_cons.mp distinct
    rw [List.foldl_cons, ih distinct, instantiateBelow_subclasses]
    by_cases same : first = other
    · subst same
      simp [fresh]
    · simp [same, Ne.symm same]

theorem instantiateAbove_instances (ancestors : List Name) (cls other : Name) (s : State) :
    (ancestors.foldl (fun s a => s.instantiateBelow p o cls a) s).has other .instantiated = true ↔
      s.has other .instantiated = true := by
  induction ancestors generalizing s with
  | nil => exact Iff.rfl
  | cons first rest ih => exact (ih _).trans (instantiateBelow_instances cls first other s)

namespace Registered

/-- A new class is listed nowhere yet, so it can be added to the lists of its ancestors. -/
theorem add (registered : Registered p s) {cls : Name} (new : ¬ s.has cls .instantiated = true)
    (evolves : Evolves p o s t)
    (instances : ∀ other, t.has other .instantiated = true ↔
      other = cls ∨ s.has other .instantiated = true)
    (inside : ∀ ancestor, p.Inherits cls ancestor →
      t.subclasses.get ancestor = s.subclasses.get ancestor ++ [cls])
    (outside : ∀ ancestor, ¬ p.Inherits cls ancestor →
      t.subclasses.get ancestor = s.subclasses.get ancestor) : Registered p t where
  fresh := registered.fresh.evolves evolves
  mem_iff ancestor other := by
    rw [instances]
    by_cases inherits : p.Inherits cls ancestor
    · rw [inside ancestor inherits, List.mem_append, List.mem_singleton, registered.mem_iff]
      constructor
      · rintro (⟨made, inherited⟩ | rfl)
        · exact ⟨.inr made, inherited⟩
        · exact ⟨.inl rfl, inherits⟩
      · rintro ⟨rfl | made, inherited⟩
        · exact .inr rfl
        · exact .inl ⟨made, inherited⟩
    · rw [outside ancestor inherits, registered.mem_iff]
      constructor
      · exact fun ⟨made, inherited⟩ => ⟨.inr made, inherited⟩
      · rintro ⟨rfl | made, inherited⟩
        · exact absurd inherited inherits
        · exact ⟨made, inherited⟩
  nodup ancestor := by
    by_cases inherits : p.Inherits cls ancestor
    · rw [inside ancestor inherits, List.nodup_append]
      refine ⟨registered.nodup ancestor, by simp, ?_⟩
      intro earlier member last added same
      have made := ((registered.mem_iff ancestor earlier).mp member).1
      exact new (List.mem_singleton.mp added ▸ same ▸ made)
    · rw [outside ancestor inherits]
      exact registered.nodup ancestor

theorem instantiate (registered : Registered p s) (cls : Name) (referrer : Referrer) :
    Registered p (s.instantiate p o cls referrer) := by
  have evolves : Evolves p o s (s.instantiate p o cls referrer) := evolves_instantiate ..
  unfold State.instantiate at evolves ⊢
  cases known : p.kind? cls with
  | none => exact registered
  | some kind =>
    rw [known] at evolves
    dsimp only at evolves ⊢
    split
    · exact registered.still (still_report _ _ s)
    · next allowed =>
      split
      · exact registered
      · next new =>
        rw [if_neg allowed, if_neg new] at evolves
        have active : Still p (s.mark cls .instantiated)
            ((s.mark cls .instantiated).activate p o cls) := still_activate cls _
        have fresh : ((s.mark cls .instantiated).activate p o cls).Fresh p :=
          active.fresh registered.fresh
        have above : ∀ ancestor, ancestor ∈ p.ancestors cls ↔ p.Inherits cls ancestor :=
          fun _ => p.mem_ancestors_iff (Program.contains_of_kind? known)
        rw [fresh.lineage_fst] at evolves ⊢
        apply registered.add new evolves
        · intro other
          rw [instantiateAbove_instances]
          exact (active.instances other).trans (by rw [has_mark, and_iff_left rfl, eq_comm])
        · intro ancestor inherits
          rw [instantiateAbove_subclasses (p.nodup_ancestors cls),
            if_pos ((above ancestor).mpr inherits)]
          exact congrArg (·.get ancestor ++ [cls]) active.subclasses
        · intro ancestor unrelated
          rw [instantiateAbove_subclasses (p.nodup_ancestors cls),
            if_neg (mt (above ancestor).mp unrelated)]
          exact congrArg (·.get ancestor) active.subclasses

theorem loadModule (registered : Registered p s) (name : Name) (referrer : Referrer) :
    Registered p (s.loadModule p o name referrer) := by
  unfold State.loadModule
  split
  · exact registered
  · split
    · exact registered.still (still_report _ _ s)
    · split
      · exact registered
      · have accessed := registered.still (still_mark name .moduleAccessed nofun s)
        exact (accessed.instantiate name referrer).still (still_callExact _ _ _ _)

theorem require (registered : Registered p s) {name : Name} {referrer : Referrer}
    {next : State → State} (goesOn : Registered p (next s)) :
    Registered p (s.require p o name referrer next) := by
  unfold State.require
  split
  · exact goesOn
  · exact registered.still (still_report _ _ s)

theorem foldl {α : Type} {op : α → State → State}
    (each : ∀ a s, Registered p s → Registered p (op a s)) (registered : Registered p s)
    (entries : List α) : Registered p (entries.foldl (fun s a => op a s) s) := by
  induction entries generalizing s with
  | nil => exact registered
  | cons first rest ih => exact ih (each first s registered)

theorem follow (registered : Registered p s) (edge : Edge) (referrer : Referrer) :
    Registered p (s.follow p o edge referrer) := by
  unfold State.follow
  cases edge with
  | readField owner field | writeField owner field =>
    have active : Still p s (s.activate p o owner) := still_activate owner s
    exact registered.require (registered.still (active.trans ⟨fun _ => Iff.rfl, rfl, id⟩))
  | call receiver method =>
    exact registered.require (registered.still (still_call receiver method referrer s))
  | callExact owner target =>
    exact registered.require (registered.still (still_callExact owner target referrer s))
  | instantiate cls => exact registered.require (registered.instantiate cls referrer)
  | loadModule cls => exact registered.require (registered.loadModule cls referrer)
  | testInstance cls =>
    have tested : Still p s (s.mark cls .typeTested) := still_mark cls .typeTested nofun s
    exact registered.require (registered.still (tested.trans (still_reach cls _)))
  | classData cls =>
    have data : Still p s (s.mark cls .dataAccessed) := still_mark cls .dataAccessed nofun s
    exact registered.require (registered.still (data.trans (still_reach cls _)))
  | mention cls => exact registered.require registered
  | hostGlobal name => exact registered.still ⟨fun _ => Iff.rfl, rfl, id⟩

theorem meet (registered : Registered p s) (demand : Demand) (referrer : Referrer) :
    Registered p (s.meet p o demand referrer) := by
  unfold State.meet
  cases demand with
  | unit name => exact registered.require registered
  | code name => exact registered.require (registered.still (still_activate name s))
  | edge edge => exact registered.follow edge referrer

theorem exposeUnit (registered : Registered p s) (name : Name) :
    Registered p (s.exposeUnit p o name) := by
  unfold State.exposeUnit
  split
  · split
    · exact registered
    · split
      · exact registered.loadModule name _
      · split
        · exact registered.instantiate name _
        · exact registered
  · exact registered

theorem addRoot (registered : Registered p s) (root : Root) :
    Registered p (s.addRoot p o root) := by
  unfold State.addRoot
  cases root with
  | unit name => exact registered.require (registered.still (still_reach name s))
  | member m => exact registered.require (registered.still (still_callExact _ _ _ s))
  | module name => exact registered.require (registered.loadModule name .roots)
  | instantiate cls ctor =>
    exact registered.require ((registered.instantiate cls .roots).still (still_callExact _ _ _ _))

theorem plant (registered : Registered p s) (seed : Seed) : Registered p (s.plant p o seed) := by
  unfold State.plant
  cases seed with
  | object => exact registered.require (registered.still (still_reach Name.object s))
  | boxed cls => exact registered.instantiate cls _
  | exported name =>
    have reached : Registered p (s.reach p o name) := registered.still (still_reach name s)
    exact (reached.exposeUnit name).still (.foldl still_schedule _ _)
  | root root => exact registered.addRoot root

theorem step (registered : Registered p s) : Registered p (s.step p o) := by
  rcases s.step_cases with ⟨_, same⟩ | ⟨m, rest, _, same⟩
  · rwa [same]
  · rw [same]
    have popped : Registered p (s.pop m rest) := registered.still ⟨fun _ => Iff.rfl, rfl, id⟩
    exact popped.foldl (fun demand s held => held.meet demand (.member (p.ref m))) _

end Registered

/-! Methods are logged once. -/

/-- No unit's log has a method twice. -/
def LogsOnce (s : State) : Prop := ∀ receiver, ((s.calls receiver).map CallSite.method).Nodup

theorem logsOnce_initial : LogsOnce {} := by
  intro receiver
  simp

theorem Change.logsOnce (change : Change p o s t) (once : LogsOnce s) : LogsOnce t := by
  cases change with
  | spread spread =>
    have spreads : Spreads p o s t := .single spread
    intro receiver
    rw [calls, spreads.logs_eq.1]
    exact once receiver
  | logCall receiver site fresh =>
    intro other
    rw [calls_logCall]
    split
    · next same =>
      subst same
      rw [List.map_append, List.nodup_append]
      refine ⟨once receiver, by simp, ?_⟩
      intro earlier member last added same
      -- A method that is in the log is in the set of the called methods.
      obtain ⟨known, logged, method⟩ := List.mem_map.mp member
      have called : s.called receiver site.method = true :=
        s.called_iff.mpr ⟨known, logged, method.trans (same.trans (List.mem_singleton.mp added))⟩
      rw [fresh] at called
      cases called
    · exact once other
  | addSubclass | accessField | useGlobal => exact once

theorem Evolves.logsOnce (evolves : Evolves p o s t) (once : LogsOnce s) : LogsOnce t := by
  induction evolves with
  | refl => exact once
  | tail _ change ih => exact change.logsOnce ih

theorem LogsOnce.step (once : LogsOnce s) : LogsOnce (s.step p o) := by
  rcases s.step_cases with ⟨_, same⟩ | ⟨m, rest, _, same⟩
  · rwa [same]
  · rw [same]
    have popped : LogsOnce (s.pop m rest) := once
    exact (evolves_expand ..).logsOnce popped

/-! Between the steps. -/

/-- What a call of the method on an instance of the class runs is on its way, is the host's, or is
reported missing. -/
def Meets (p : Program) (o : Options) (cls method : Name) (s : State) : Prop :=
  (∃ m, p.target? cls method = some m ∧ s.progress.get m ≠ .unseen) ∨
    (p.target? cls method = none ∧ p.isHostProvided cls = true) ∨
    (p.target? cls method = none ∧
      (o.missing = .report →
        Diagnostic.Listed s.diagnostics.entries (.missingMember ⟨cls, .method method⟩)))

theorem Resolved.meets {cls method : Name} (resolved : s.Resolved p o cls method) :
    s.Meets p o cls method := by
  unfold Resolved at resolved
  cases found : p.target? cls method with
  | some m =>
    rw [found] at resolved
    have body := Program.liveness?_of_body (Program.abstract?_of_target? found)
    exact .inl ⟨m, found, resolved (Program.isSome_member?_iff.mpr ⟨_, body⟩)⟩
  | none =>
    rw [found] at resolved
    cases host : p.isHostProvided cls with
    | true => exact .inr (.inl ⟨found, host⟩)
    | false => exact .inr (.inr ⟨found, resolved host⟩)

/-- Each instantiated class has met the calls on each of its ancestors. -/
structure Replayed (p : Program) (o : Options) (s : State) : Prop where
  subclasses : ∀ receiver cls, cls ∈ s.subclasses.get receiver ↔
    s.has cls .instantiated = true ∧ p.Inherits cls receiver
  listedOnce : ∀ receiver, (s.subclasses.get receiver).Nodup
  calls : ∀ receiver method, s.called receiver method = true ↔
    method ∈ (s.calls receiver).map CallSite.method
  loggedOnce : ∀ receiver, ((s.calls receiver).map CallSite.method).Nodup
  met : ∀ receiver, ∀ cls ∈ s.subclasses.get receiver, ∀ site ∈ s.calls receiver,
    s.Meets p o cls site.method

/-- Between the steps of a run no duty is open. -/
theorem Between.settled (between : Between p o roots s) : Worklist p s ∧ Settled p o ∅ s := by
  refine @Between.induction p o roots s (fun s => Worklist p s ∧ Settled p o ∅ s) between ?_ ?_ ?_
  · exact ⟨worklist_initial, settled_initial⟩
  · intro seed member s ⟨valid, settled⟩
    have planted := ensures_plant member ∅ s (fun _ => Set.notMem_empty _) settled
    exact ⟨valid.evolves (evolves_plant seed s), planted.1⟩
  · exact fun s ⟨valid, settled⟩ => ⟨valid.step, settled.step valid⟩

/-- Between the steps of a run all calls and instances have met. -/
theorem replayed_between (between : Between p o roots s) : Replayed p o s := by
  have registered : Registered p s := between.induction registered_initial
    (fun seed _ _ held => held.plant seed) (fun _ held => held.step)
  have once : LogsOnce s := between.induction logsOnce_initial
    (fun seed _ s held => (evolves_plant seed s).logsOnce held) (fun _ held => held.step)
  refine ⟨registered.mem_iff, registered.nodup,
    fun _ _ => s.called_iff.trans List.mem_map.symm, once, ?_⟩
  intro receiver cls below site logged
  have called : s.called receiver site.method = true :=
    s.called_iff.mpr ⟨site, logged, rfl⟩
  have owes : s.Owes p (.dispatch receiver site.method cls) := ⟨called, below⟩
  exact Resolved.meets ((between.settled.2.duties _ owes).resolve_left (Set.notMem_empty _))

/-- An export calls a method on an interface before it makes the first instance below it. Its class
has two methods of that name, and a lookup finds the second. This one calls a method on its own class,
which has instances by then, and nothing implements that method. -/
def lateInstance : Program :=
  .ofUnits
    [{ name := ⟨20⟩, kind := .plainClass, isExported := true,
       members := [{ selector := .topLevelExports, isExported := true,
                     dependencies := { calls := [(⟨21⟩, [⟨31⟩])], instantiated := [⟨22⟩] } }] },
     { name := ⟨21⟩, kind := .interface,
       members := [{ selector := .method ⟨31⟩, isAbstract := true }] },
     { name := ⟨22⟩, kind := .plainClass, interfaces := [⟨21⟩],
       members := [{ selector := .method ⟨31⟩ },
                   { selector := .method ⟨31⟩, dependencies := { calls := [(⟨22⟩, [⟨32⟩])] } }] }]

theorem replayed_lateInstance :
    let s := (seeded lateInstance {} ∅).steps lateInstance {} 2
    Between lateInstance {} ∅ s ∧ Replayed lateInstance {} s ∧
      s.subclasses.get ⟨21⟩ = [⟨22⟩] ∧ s.called ⟨21⟩ ⟨31⟩ = true ∧
      s.progress.get ⟨⟨22⟩, 1⟩ = .reached ∧ s.progress.get ⟨⟨22⟩, 0⟩ = .unseen ∧
      s.subclasses.get ⟨22⟩ = [⟨22⟩] ∧ s.called ⟨22⟩ ⟨32⟩ = true ∧
      Diagnostic.Listed s.diagnostics.entries (.missingMember ⟨⟨22⟩, .method ⟨32⟩⟩) := by
  have between : Between lateInstance {} ∅ ((seeded lateInstance {} ∅).steps lateInstance {} 2) :=
    .expanding 2
  refine ⟨between, replayed_between between, ?_⟩
  unfold Diagnostic.Listed
  decide

end TreeShake.State
