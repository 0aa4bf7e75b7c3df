import Mathlib.Data.Nat.Find
import TreeShake.Proofs.Replay

set_option autoImplicit false

/-!
The queue drains. Whatever operations are performed, in whatever order, a member is pending exactly
while it waits in the queue, and it never goes back: one with a body is scheduled and then expanded,
an abstract one is declared. Uses are added, and call logs and lists of subclasses grow at their end.

So a member gets to the front of the queue at most once, and a run stops after at most as many
expansions as there are bodies in the program. Neither recursion nor a cycle in the hierarchy can
keep it going.
-/

namespace TreeShake

/-- How a member moves on. -/
inductive Progress.Moves (isAbstract : Option Bool) : Progress → Progress → Prop
  | stay (progress : Progress) : Moves isAbstract progress progress
  | schedule : isAbstract = some false → Moves isAbstract .unseen .pending
  | expand : isAbstract = some false → Moves isAbstract .pending .reached
  | declare : isAbstract = some true → Moves isAbstract .unseen .reached

/-- The operations of a run, and those that they consist of. -/
inductive Operation where
  | mark (name : Name) (use : Use)
  | report (defect : Defect) (referrer : Referrer)
  | logCall (receiver : Name) (site : CallSite)
  | addSubclass (ancestor cls : Name)
  | accessField (access : Access) (owner field : Name)
  | useGlobal (name : Name)
  | ask (name : Name)
  | requireAll (names : List Name) (referrer : Referrer)
  | reach (name : Name)
  | enqueue (m : Slot)
  | activate (name : Name)
  | schedule (m : Slot)
  | lookup (cls method : Name)
  | lookupExact (owner : Name) (selector : Selector)
  | resolve (cls : Name) (site : CallSite)
  | instantiateBelow (cls ancestor : Name)
  | instantiate (cls : Name) (referrer : Referrer)
  | keepContract (receiver method : Name)
  | call (receiver method : Name) (referrer : Referrer)
  | callExact (owner : Name) (selector : Selector) (referrer : Referrer)
  | loadModule (name : Name) (referrer : Referrer)
  | follow (edge : Edge) (referrer : Referrer)
  | meet (demand : Demand) (referrer : Referrer)
  | expand (d : Dependencies) (referrer : Referrer)
  | exposeUnit (name : Name)
  | exportUnit (name : Name)
  | addRoot (root : Root)
  | plant (seed : Seed)
  | take
  | step

/-- The operations that all others consist of. -/
def Operation.isElementary : Operation → Bool
  | mark .. | report .. | ask .. | enqueue .. | logCall .. | addSubclass .. | accessField ..
  | useGlobal .. | take => true
  | _ => false

namespace State

variable (p : Program) (o : Options)

/-- Takes the first member from the queue. -/
def take (s : State) : State :=
  match s.queue with
  | [] => s
  | m :: rest => s.pop m rest

def perform (s : State) : Operation → State
  | .mark name use => s.mark name use
  | .report defect referrer => s.report o defect referrer
  | .logCall receiver site => s.logCall receiver site
  | .addSubclass ancestor cls => s.addSubclass ancestor cls
  | .accessField access owner field => s.accessField access owner field
  | .useGlobal name => s.useGlobal name
  | .ask name => (s.lineage p name).2
  | .requireAll names referrer => s.requireAll p o names referrer
  | .reach name => s.reach p o name
  | .enqueue m => s.enqueue p m
  | .activate name => s.activate p o name
  | .schedule m => s.schedule p o m
  | .lookup cls method => (s.lookup p cls method).2
  | .lookupExact owner selector => (s.lookupExact p owner selector).2
  | .resolve cls site => s.resolve p o cls site
  | .instantiateBelow cls ancestor => s.instantiateBelow p o cls ancestor
  | .instantiate cls referrer => s.instantiate p o cls referrer
  | .keepContract receiver method => s.keepContract p o receiver method
  | .call receiver method referrer => s.call p o receiver method referrer
  | .callExact owner selector referrer => s.callExact p o owner selector referrer
  | .loadModule name referrer => s.loadModule p o name referrer
  | .follow edge referrer => s.follow p o edge referrer
  | .meet demand referrer => s.meet p o demand referrer
  | .expand d referrer => s.expand p o d referrer
  | .exposeUnit name => s.exposeUnit p o name
  | .exportUnit name => s.exportUnit p o name
  | .addRoot root => s.addRoot p o root
  | .plant seed => s.plant p o seed
  | .take => s.take
  | .step => s.step p o

/-- The state after some operations, which may or may not be those of a run. -/
def after (ops : List Operation) : State := ops.foldl (perform p o) {}

/-- The second state knows all that the first one knows, and members have moved at most forward. -/
structure Advances (s t : State) : Prop extends Grows s t where
  moves : ∀ m, (s.progress.get m).Moves (p.abstract? m) (t.progress.get m)

variable {p o} {roots : RootSet} {s t : State}

theorem progress_enqueue (m other : Slot) (s : State) :
    (s.enqueue p m).progress.get other = s.progress.get other ∨
      s.progress.get other = .unseen ∧
        Progress.Moves (p.abstract? other) .unseen ((s.enqueue p m).progress.get other) := by
  by_cases same : m = other
  · subst same
    unfold enqueue
    split
    · next unseen =>
      split
      · exact .inl rfl
      · next contract =>
        simp only [TotalMap.get_set, if_pos]
        exact .inr ⟨unseen, .declare contract⟩
      · next body =>
        simp only [TotalMap.get_set, if_pos]
        exact .inr ⟨unseen, .schedule body⟩
    · exact .inl rfl
  · left
    unfold enqueue
    split
    · split <;> simp [TotalMap.get_set, same]
    · rfl

theorem Change.progress (change : Change p o s t) (m : Slot) :
    t.progress.get m = s.progress.get m ∨
      s.progress.get m = .unseen ∧ Progress.Moves (p.abstract? m) .unseen (t.progress.get m) := by
  cases change with
  | spread spread =>
    cases spread with
    | mark | report | ask => exact .inl rfl
    | enqueue other => exact progress_enqueue other m s
  | logCall | addSubclass | accessField | useGlobal => exact .inl rfl

/-- Only members that were not seen before move, since nothing is expanded. -/
theorem Evolves.progress (evolves : Evolves p o s t) (m : Slot) :
    t.progress.get m = s.progress.get m ∨
      s.progress.get m = .unseen ∧ Progress.Moves (p.abstract? m) .unseen (t.progress.get m) := by
  induction evolves with
  | refl => exact .inl rfl
  | tail _ change ih =>
    rcases change.progress m with same | ⟨unseen, moves⟩
    · rwa [same]
    · rcases ih with kept | ⟨before, _⟩
      · exact .inr ⟨kept ▸ unseen, moves⟩
      · exact .inr ⟨before, moves⟩

theorem Evolves.advances (evolves : Evolves p o s t) : Advances p s t := by
  refine ⟨evolves.grows, fun m => ?_⟩
  rcases evolves.progress m with same | ⟨unseen, moves⟩
  · rw [same]
    exact .stay _
  · rwa [unseen]

/-- The member at the front of the queue is expanded, and others move while that happens. -/
theorem Worklist.advances_pop (valid : Worklist p s) {m : Slot} {rest : List Slot}
    (front : s.queue = m :: rest) (evolves : Evolves p o (s.pop m rest) t) : Advances p s t := by
  have waits : m ∈ s.queue := by simp [front]
  refine ⟨(valid.grows_pop front).trans evolves.grows, fun other => ?_⟩
  by_cases same : m = other
  · subst same
    have taken : (s.pop m rest).progress.get m = .reached := by simp [State.pop, TotalMap.get_set]
    have expanded := evolves.grows.expanded m taken
    rw [(valid.pending_iff m).mpr waits, expanded]
    exact .expand (valid.bodies m waits)
  · have untouched : (s.pop m rest).progress.get other = s.progress.get other := by
      simp [State.pop, TotalMap.get_set, same]
    rw [← untouched]
    exact evolves.advances.moves other

/-- What an operation does: it adds to the state, or writes a call down, or takes a member from the
queue and adds to the state after that. -/
theorem perform_cases (s : State) (op : Operation) :
    Evolves p o s (s.perform p o op) ∨
      (∃ receiver site, s.perform p o op = s.logCall receiver site) ∨
      ∃ m rest, s.queue = m :: rest ∧ Evolves p o (s.pop m rest) (s.perform p o op) := by
  cases op with
  | mark => exact .inl (.single (.spread (.mark ..)))
  | report => exact .inl (.single (.spread (.report ..)))
  | enqueue => exact .inl (.single (.spread (.enqueue ..)))
  | addSubclass => exact .inl (.single (.addSubclass ..))
  | ask => exact .inl (.single (.spread (.ask ..)))
  | accessField => exact .inl (.single (.accessField ..))
  | useGlobal => exact .inl (.single (.useGlobal ..))
  | requireAll => exact .inl (spreads_requireAll ..).evolves
  | reach => exact .inl (spreads_reach ..).evolves
  | activate => exact .inl (spreads_activate ..).evolves
  | schedule => exact .inl (spreads_schedule ..).evolves
  | lookup => exact .inl (asks_lookup ..).spreads.evolves
  | lookupExact => exact .inl (asks_lookupExact ..).spreads.evolves
  | resolve => exact .inl (spreads_resolve ..).evolves
  | keepContract => exact .inl (spreads_keepContract ..).evolves
  | callExact => exact .inl (spreads_callExact ..).evolves
  | instantiateBelow => exact .inl (evolves_instantiateBelow ..)
  | instantiate => exact .inl (evolves_instantiate ..)
  | call => exact .inl (evolves_call ..)
  | loadModule => exact .inl (evolves_loadModule ..)
  | follow => exact .inl (evolves_follow ..)
  | meet => exact .inl (evolves_meet ..)
  | expand => exact .inl (evolves_expand ..)
  | exposeUnit => exact .inl (evolves_exposeUnit ..)
  | exportUnit => exact .inl (evolves_exportUnit ..)
  | addRoot => exact .inl (evolves_addRoot ..)
  | plant => exact .inl (evolves_plant ..)
  -- Without a look at the log, a call may be written down twice.
  | logCall receiver site => exact .inr (.inl ⟨receiver, site, rfl⟩)
  | take =>
    cases front : s.queue with
    | nil =>
      left
      rw [perform, take, front]
      exact .refl
    | cons m rest =>
      refine .inr (.inr ⟨m, rest, rfl, ?_⟩)
      rw [perform, take, front]
      exact .refl
  | step =>
    cases front : s.queue with
    | nil =>
      left
      rw [perform, step, front]
      exact .refl
    | cons m rest =>
      refine .inr (.inr ⟨m, rest, rfl, ?_⟩)
      rw [perform, step_of_queue front]
      exact evolves_expand ..

theorem Worklist.perform (valid : Worklist p s) (op : Operation) :
    Worklist p (s.perform p o op) := by
  rcases s.perform_cases op with evolves | ⟨receiver, site, same⟩ | ⟨m, rest, front, evolves⟩
  · exact valid.evolves evolves
  · rw [same]
    exact ⟨valid.pending_iff, valid.nodup, valid.bodies⟩
  · exact (valid.pop front).evolves evolves

theorem Worklist.advances_perform (valid : Worklist p s) (op : Operation) :
    Advances p s (s.perform p o op) := by
  rcases s.perform_cases op with evolves | ⟨receiver, site, same⟩ | ⟨m, rest, front, evolves⟩
  · exact evolves.advances
  · rw [same]
    exact ⟨grows_logCall s receiver site, fun _ => .stay _⟩
  · exact valid.advances_pop front evolves

theorem Worklist.foldl_perform (valid : Worklist p s) (ops : List Operation) :
    Worklist p (ops.foldl (State.perform p o) s) := by
  induction ops generalizing s with
  | nil => exact valid
  | cons op rest ih => exact ih (valid.perform op)

theorem worklist_after (ops : List Operation) : Worklist p (after p o ops) :=
  worklist_initial.foldl_perform ops

/-! What a run consists of. -/

variable (p o) in
/-- Elementary operations lead from the first state to the second. -/
def Composed (s t : State) : Prop :=
  ∃ ops : List Operation, (∀ op ∈ ops, op.isElementary = true) ∧ t = ops.foldl (perform p o) s

theorem Composed.refl (s : State) : Composed p o s s :=
  ⟨[], fun _ member => absurd member List.not_mem_nil, rfl⟩

theorem Composed.trans {u : State} (first : Composed p o s t) (second : Composed p o t u) :
    Composed p o s u := by
  obtain ⟨ops, elementary, rfl⟩ := first
  obtain ⟨more, later, rfl⟩ := second
  exact ⟨ops ++ more, List.forall_mem_append.mpr ⟨elementary, later⟩, List.foldl_append.symm⟩

theorem composed_perform (op : Operation) (elementary : op.isElementary = true) (s : State) :
    Composed p o s (s.perform p o op) :=
  ⟨[op], by simpa using elementary, rfl⟩

theorem Change.composed (change : Change p o s t) : Composed p o s t := by
  cases change with
  | spread spread =>
    cases spread with
    | mark name use => exact composed_perform (.mark name use) rfl s
    | report defect referrer => exact composed_perform (.report defect referrer) rfl s
    | ask name => exact composed_perform (.ask name) rfl s
    | enqueue m => exact composed_perform (.enqueue m) rfl s
  | logCall receiver site => exact composed_perform (.logCall receiver site) rfl s
  | addSubclass ancestor cls => exact composed_perform (.addSubclass ancestor cls) rfl s
  | accessField access owner field =>
    exact composed_perform (.accessField access owner field) rfl s
  | useGlobal name => exact composed_perform (.useGlobal name) rfl s

theorem Evolves.composed (evolves : Evolves p o s t) : Composed p o s t := by
  induction evolves with
  | refl => exact .refl s
  | tail _ change ih => exact ih.trans change.composed

theorem composed_step (s : State) : Composed p o s (s.step p o) := by
  cases front : s.queue with
  | nil =>
    rw [step, front]
    exact .refl s
  | cons m rest =>
    have taken : Composed p o s s.take := composed_perform .take rfl s
    rw [take, front] at taken
    rw [step_of_queue front]
    exact taken.trans (evolves_expand ..).composed

/-- A run is a sequence of elementary operations, of which each state between its steps is a part. -/
theorem Between.composed (between : Between p o roots s) : Composed p o {} s := by
  apply between.induction
  · exact .refl {}
  · exact fun seed _ s composed => composed.trans (evolves_plant seed s).composed
  · exact fun s composed => composed.trans (composed_step s)

/-! The end of a run. -/

theorem steps_add (first second : Nat) (s : State) :
    s.steps p o (first + second) = (s.steps p o first).steps p o second := by
  induction first generalizing s with
  | zero => rw [Nat.zero_add, steps]
  | succ first ih => rw [Nat.succ_add, steps, ih, steps]

theorem steps_eq_of_idle {count later : Nat} (idle : (s.steps p o count).queue = [])
    (order : count ≤ later) : s.steps p o later = s.steps p o count := by
  obtain ⟨more, rfl⟩ := Nat.exists_eq_add_of_le order
  rw [steps_add, steps_idle idle]

theorem Worklist.steps (valid : Worklist p s) (count : Nat) : Worklist p (s.steps p o count) :=
  steps_induction (fun _ valid => valid.step) count valid

/-- A member that has been at the front of the queue does not get there again. -/
theorem Worklist.front_once (valid : Worklist p s) {first second : Nat} {m : Slot}
    (early : (s.steps p o first).queue.head? = some m)
    (late : (s.steps p o second).queue.head? = some m) : second ≤ first := by
  by_contra later
  obtain ⟨more, rfl⟩ := Nat.exists_eq_add_of_lt (Nat.not_le.mp later)
  obtain ⟨rest, front⟩ := List.head?_eq_some_iff.mp early
  have expanded := (valid.steps first).reached_steps (o := o) front more
  have pending := ((valid.steps (first + more + 1)).pending_iff m).mpr (List.mem_of_head? late)
  rw [Nat.add_assoc, steps_add, expanded] at pending
  cases pending

theorem exists_stop (roots : RootSet) :
    ∃ count ≤ p.bodyCount,
      (∀ earlier < count, ((seeded p o roots).steps p o earlier).queue ≠ []) ∧
      ∀ later ≥ count, (seeded p o roots).steps p o later = run p o roots ∧
        ((seeded p o roots).steps p o later).queue = [] := by
  have stops : ∃ count, ((seeded p o roots).steps p o count).queue = [] :=
    ⟨p.bodyCount, queue_run roots⟩
  classical
  have least := Nat.find_min' stops (queue_run roots)
  refine ⟨Nat.find stops, least, fun _ => Nat.find_min stops, fun later order => ?_⟩
  have idle := Nat.find_spec stops
  have same : run p o roots = _ := steps_eq_of_idle idle least
  rw [steps_eq_of_idle idle order]
  exact ⟨same.symm, idle⟩

/-- A run is made of operations, and however operations are put together, the queue holds what is
pending and nothing moves back. So a run comes to an end. -/
structure Disciplined (p : Program) (o : Options) (roots : RootSet) : Prop where
  between : ∀ s, Between p o roots s →
    ∃ ops, (∀ op ∈ ops, op.isElementary = true) ∧ s = after p o ops
  worklist : ∀ ops, Worklist p (after p o ops)
  advances : ∀ ops op, Advances p (after p o ops) ((after p o ops).perform p o op)
  expandedOnce : ∀ first second m,
    ((seeded p o roots).steps p o first).queue.head? = some m →
    ((seeded p o roots).steps p o second).queue.head? = some m → first = second
  stops : ∃ count ≤ p.bodyCount,
    (∀ earlier < count, ((seeded p o roots).steps p o earlier).queue ≠ []) ∧
    ∀ later ≥ count, (seeded p o roots).steps p o later = run p o roots ∧
      ((seeded p o roots).steps p o later).queue = []
  rested : ∀ m, (run p o roots).progress.get m ≠ .pending

/-- Every run drains its queue: no operation moves a member back, none is expanded twice, and after
at most as many steps as there are bodies nothing is pending. -/
theorem disciplined_run (p : Program) (o : Options) (roots : RootSet) : Disciplined p o roots where
  between _ between := between.composed
  worklist := worklist_after
  advances ops op := (worklist_after ops).advances_perform op
  expandedOnce _ _ _ early late :=
    Nat.le_antisymm ((worklist_seeded roots).front_once late early)
      ((worklist_seeded roots).front_once early late)
  stops := exists_stop roots
  rested := not_pending_run roots

end State

end TreeShake
