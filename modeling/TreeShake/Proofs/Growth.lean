import Mathlib.Logic.Relation
import TreeShake.Proofs.Diagnostics
import TreeShake.Reachability.Run

set_option autoImplicit false

/-!
What an operation can do to a state. Each one is a sequence of elementary additions, so nothing that
is known is ever lost: uses and diagnostics are added, members move forward, call logs and lists of
subclasses are extended at their end.

Most operations only make more of the program live. They leave the logs and the lists of subclasses
alone, and that is why a log can be replayed while it is read.
-/

namespace TreeShake.State

variable (p : Program) (o : Options)

/-- An addition that leaves the call logs and the lists of subclasses alone. -/
inductive Spread : State → State → Prop
  | mark (s : State) (name : Name) (use : Use) : Spread s (s.mark name use)
  | report (s : State) (defect : Defect) (referrer : Referrer) :
      Spread s (s.report o defect referrer)
  | ask (s : State) (name : Name) : Spread s (s.lineage p name).2
  | enqueue (s : State) (m : Slot) : Spread s (s.enqueue p m)

/-- An elementary addition. -/
inductive Change : State → State → Prop
  | spread {s t : State} : Spread p o s t → Change s t
  | logCall (s : State) (receiver : Name) (site : CallSite) :
      s.called receiver site.method = false → Change s (s.logCall receiver site)
  | addSubclass (s : State) (ancestor cls : Name) : Change s (s.addSubclass ancestor cls)
  | accessField (s : State) (access : Access) (owner field : Name) :
      Change s (s.accessField access owner field)
  | useGlobal (s : State) (name : Name) : Change s (s.useGlobal name)

def Spreads : State → State → Prop := Relation.ReflTransGen (Spread p o)

def Evolves : State → State → Prop := Relation.ReflTransGen (Change p o)

/-- Requests for ancestors, and nothing else. -/
def Asks : State → State → Prop := Relation.ReflTransGen fun s t => ∃ name, t = (s.lineage p name).2

variable {p o}

theorem Asks.spreads {s t : State} (asks : Asks p s t) : Spreads p o s t := by
  induction asks with
  | refl => exact .refl
  | tail _ ask ih =>
    obtain ⟨name, rfl⟩ := ask
    exact ih.tail (.ask ..)

theorem Spreads.evolves {s t : State} (spreads : Spreads p o s t) : Evolves p o s t :=
  Relation.ReflTransGen.mono (fun _ _ => Change.spread) s t spreads

theorem foldl_star {α : Type} {related : State → State → Prop} {f : State → α → State}
    {entries : List α}
    (each : ∀ a ∈ entries, ∀ s, Relation.ReflTransGen related s (f s a)) (s : State) :
    Relation.ReflTransGen related s (entries.foldl f s) := by
  induction entries generalizing s with
  | nil => exact .refl
  | cons first rest ih =>
    have head := each first List.mem_cons_self s
    exact head.trans (ih (fun a member => each a (List.mem_cons_of_mem _ member)) _)

theorem spreads_requireAll (names : List Name) (referrer : Referrer) (s : State) :
    Spreads p o s (s.requireAll p o names referrer) := by
  apply foldl_star
  intro name _ s
  unfold require
  split
  · exact .refl
  · exact .single (.report ..)

theorem spreads_reachFrom (rounds : Nat) (pending : List Name) (s : State) :
    Spreads p o s (s.reachFrom p o rounds pending) := by
  induction rounds generalizing pending s with
  | zero => exact .refl
  | succ rounds ih =>
    rw [reachFrom]
    split
    · exact .refl
    · next name rest _ =>
      have marked : Spreads p o s (s.mark name .reached) := .single (.mark ..)
      exact (marked.trans (spreads_requireAll ..)).trans (ih ..)

theorem spreads_reach (name : Name) (s : State) : Spreads p o s (s.reach p o name) :=
  spreads_reachFrom ..

theorem spreads_activate (name : Name) (s : State) : Spreads p o s (s.activate p o name) := by
  unfold activate
  split
  · exact .refl
  · have marked : Spreads p o s (s.mark name .initialized) := .single (.mark ..)
    have reached := marked.trans (spreads_reach name (s.mark name .initialized))
    dsimp only
    split
    · exact reached.tail (.enqueue ..)
    · exact reached

theorem spreads_schedule (m : Slot) (s : State) : Spreads p o s (s.schedule p o m) := by
  have enqueued : Spreads p o s (s.enqueue p m) := .single (.enqueue ..)
  unfold schedule
  split
  · split
    · exact .refl
    · exact enqueued.trans (spreads_reach ..)
    · exact enqueued.trans (spreads_activate ..)
  · exact .refl

theorem asks_overridden (owner : Name) (candidates : List Name) (s : State) :
    Asks p s (s.overridden p owner candidates).2 := by
  induction candidates generalizing s with
  | nil => exact .refl
  | cons other rest ih =>
    have asked : Asks p s (s.lineage p other).2 := .single ⟨other, rfl⟩
    rw [overridden]
    split
    · exact ih s
    · dsimp only
      split
      · exact asked
      · exact asked.trans (ih _)

theorem asks_mostSpecific (candidates owners : List Name) (s : State) :
    Asks p s (s.mostSpecific p candidates owners).2 := by
  induction owners generalizing s with
  | nil => exact .refl
  | cons owner rest ih =>
    rw [mostSpecific]
    split
    · exact (asks_overridden ..).trans (ih _)
    · exact asks_overridden ..

theorem asks_lookup (cls method : Name) (s : State) : Asks p s (s.lookup p cls method).2 := by
  unfold lookup
  split
  · exact .refl
  · have asked : Asks p s (s.lineage p cls).2 := .single ⟨cls, rfl⟩
    exact asked.trans (asks_mostSpecific ..)

theorem asks_lookupExact (owner : Name) (selector : Selector) (s : State) :
    Asks p s (s.lookupExact p owner selector).2 := by
  unfold lookupExact
  split
  · exact asks_lookup ..
  · exact .refl

theorem spreads_resolve (cls : Name) (site : CallSite) (s : State) :
    Spreads p o s (s.resolve p o cls site) := by
  have asked : Spreads p o s (s.lookup p cls site.method).2 := (asks_lookup ..).spreads
  unfold resolve
  dsimp only
  split
  · exact asked.trans (spreads_schedule ..)
  · split
    · exact asked
    · exact asked.tail (.report ..)

theorem spreads_keepContract (receiver method : Name) (s : State) :
    Spreads p o s (s.keepContract p o receiver method) := by
  have asked : Spreads p o s (s.lineage p receiver).2 := .single (.ask ..)
  unfold keepContract
  split
  · dsimp only
    split
    · exact asked.trans (spreads_schedule ..)
    · exact asked
  · exact .refl

theorem spreads_callExact (owner : Name) (selector : Selector) (referrer : Referrer) (s : State) :
    Spreads p o s (s.callExact p o owner selector referrer) := by
  have asked : Spreads p o s (s.lookupExact p owner selector).2 := (asks_lookupExact ..).spreads
  unfold callExact
  dsimp only
  split
  · exact asked.trans (spreads_schedule ..)
  · split
    · exact asked.trans (spreads_reach ..)
    · exact asked.tail (.report ..)

theorem spreads_replay (cls : Name) (sites : List CallSite) (s : State) :
    Spreads p o s (sites.foldl (fun s site => s.resolve p o cls site) s) :=
  foldl_star (fun _ _ _ => spreads_resolve ..) s

theorem spreads_dispatch (classes : List Name) (site : CallSite) (s : State) :
    Spreads p o s (classes.foldl (fun s cls => s.resolve p o cls site) s) :=
  foldl_star (fun _ _ _ => spreads_resolve ..) s

theorem evolves_instantiateBelow (cls ancestor : Name) (s : State) :
    Evolves p o s (s.instantiateBelow p o cls ancestor) := by
  have marked : Evolves p o s (s.mark ancestor .dataAccessed) := .single (.spread (.mark ..))
  exact (marked.tail (.addSubclass ..)).trans (spreads_replay ..).evolves

theorem evolves_instantiate (cls : Name) (referrer : Referrer) (s : State) :
    Evolves p o s (s.instantiate p o cls referrer) := by
  unfold instantiate
  split
  · exact .refl
  · split
    · exact .single (.spread (.report ..))
    · split
      · exact .refl
      · have marked : Evolves p o s (s.mark cls .instantiated) := .single (.spread (.mark ..))
        have active := marked.trans (spreads_activate cls (s.mark cls .instantiated)).evolves
        have asked := active.tail (.spread (.ask _ cls))
        exact asked.trans (foldl_star (fun _ _ _ => evolves_instantiateBelow ..) _)

theorem evolves_call (receiver method : Name) (referrer : Referrer) (s : State) :
    Evolves p o s (s.call p o receiver method referrer) := by
  unfold call
  split
  · exact .refl
  · next fresh =>
    have logged : Evolves p o s (s.logCall receiver ⟨method, referrer⟩) :=
      .single (.logCall _ _ _ (by simpa using fresh))
    have kept := logged.trans (spreads_keepContract receiver method _).evolves
    exact kept.trans (spreads_dispatch ..).evolves

theorem evolves_loadModule (name : Name) (referrer : Referrer) (s : State) :
    Evolves p o s (s.loadModule p o name referrer) := by
  unfold loadModule
  split
  · exact .refl
  · split
    · exact .single (.spread (.report ..))
    · split
      · exact .refl
      · have marked : Evolves p o s (s.mark name .moduleAccessed) := .single (.spread (.mark ..))
        have made := marked.trans (evolves_instantiate name referrer _)
        exact made.trans (spreads_callExact ..).evolves

theorem evolves_require {name : Name} {referrer : Referrer} {next : State → State}
    (goes : ∀ s, Evolves p o s (next s)) (s : State) :
    Evolves p o s (s.require p o name referrer next) := by
  unfold require
  split
  · exact goes s
  · exact .single (.spread (.report ..))

theorem evolves_follow (edge : Edge) (referrer : Referrer) (s : State) :
    Evolves p o s (s.follow p o edge referrer) := by
  have reached : ∀ (use : Use) (name : Name) (s : State),
      Evolves p o s ((s.mark name use).reach p o name) := fun use name s =>
    .head (.spread (.mark s name use)) (spreads_reach ..).evolves
  cases edge with
  | readField owner field =>
    exact evolves_require (fun s => (spreads_activate owner s).evolves.tail (.accessField ..)) s
  | writeField owner field =>
    exact evolves_require (fun s => (spreads_activate owner s).evolves.tail (.accessField ..)) s
  | call receiver method => exact evolves_require (fun s => evolves_call ..) s
  | callExact owner target => exact evolves_require (fun s => (spreads_callExact ..).evolves) s
  | instantiate cls => exact evolves_require (fun s => evolves_instantiate ..) s
  | loadModule cls => exact evolves_require (fun s => evolves_loadModule ..) s
  | testInstance cls => exact evolves_require (reached .typeTested cls) s
  | classData cls => exact evolves_require (reached .dataAccessed cls) s
  | mention cls => exact evolves_require (fun s => .refl) s
  | hostGlobal name => exact .single (.useGlobal ..)

theorem evolves_meet (demand : Demand) (referrer : Referrer) (s : State) :
    Evolves p o s (s.meet p o demand referrer) := by
  cases demand with
  | unit name => exact evolves_require (fun s => .refl) s
  | code name => exact evolves_require (fun s => (spreads_activate ..).evolves) s
  | edge edge => exact evolves_follow ..

theorem evolves_expand (d : Dependencies) (referrer : Referrer) (s : State) :
    Evolves p o s (s.expand p o d referrer) :=
  foldl_star (fun _ _ _ => evolves_meet ..) s

theorem evolves_exposeUnit (name : Name) (s : State) :
    Evolves p o s (s.exposeUnit p o name) := by
  unfold exposeUnit
  split
  · split
    · exact .refl
    · split
      · exact evolves_loadModule ..
      · split
        · exact evolves_instantiate ..
        · exact .refl
  · exact .refl

theorem evolves_exportUnit (name : Name) (s : State) :
    Evolves p o s (s.exportUnit p o name) := by
  have exposed : Evolves p o s ((s.reach p o name).exposeUnit p o name) :=
    (spreads_reach name s).evolves.trans (evolves_exposeUnit ..)
  exact exposed.trans (foldl_star (fun _ _ _ => (spreads_schedule ..).evolves) _)

theorem evolves_addRoot (root : Root) (s : State) : Evolves p o s (s.addRoot p o root) := by
  cases root with
  | unit name => exact evolves_require (fun s => (spreads_reach ..).evolves) s
  | member m => exact evolves_require (fun s => (spreads_callExact ..).evolves) s
  | module name => exact evolves_require (fun s => evolves_loadModule ..) s
  | instantiate cls ctor =>
    exact evolves_require (fun s =>
      (evolves_instantiate cls .roots s).trans (spreads_callExact ..).evolves) s

theorem evolves_plant (seed : Seed) (s : State) : Evolves p o s (s.plant p o seed) := by
  cases seed with
  | object => exact evolves_require (fun s => (spreads_reach ..).evolves) s
  | boxed cls => exact evolves_instantiate ..
  | exported name => exact evolves_exportUnit ..
  | root root => exact evolves_addRoot ..

theorem Spreads.logs_eq {s t : State} (spreads : Spreads p o s t) :
    t.callLog = s.callLog ∧ t.subclasses = s.subclasses := by
  induction spreads with
  | refl => exact ⟨rfl, rfl⟩
  | tail _ spread ih =>
    cases spread with
    | mark | report | ask => exact ih
    | enqueue m =>
      rw [← ih.1, ← ih.2, enqueue]
      split
      · split <;> exact ⟨rfl, rfl⟩
      · exact ⟨rfl, rfl⟩

/-- The second state knows all that the first one knows. A part that an addition leaves alone needs
no mention. -/
structure Grows (s t : State) : Prop where
  uses : ∀ name use, s.has name use = true → t.has name use = true := by exact fun _ _ held => held
  seen : ∀ m, s.progress.get m ≠ .unseen → t.progress.get m ≠ .unseen := by
    exact fun _ held => held
  expanded : ∀ m, s.progress.get m = .reached → t.progress.get m = .reached := by
    exact fun _ held => held
  calls : ∀ name, s.calls name <+: t.calls name := by exact fun _ => List.prefix_rfl
  subclasses : ∀ name, s.subclasses.get name <+: t.subclasses.get name := by
    exact fun _ => List.prefix_rfl
  fields : ∀ access owner, (s.fields access).get owner ⊆ (t.fields access).get owner := by
    exact fun _ _ => List.Subset.refl _
  hostGlobals : s.hostGlobals ⊆ t.hostGlobals := by exact List.Subset.refl _
  listed : ∀ defect, Diagnostic.Listed s.diagnostics.entries defect →
    Diagnostic.Listed t.diagnostics.entries defect := by exact fun _ held => held
  mentioned : ∀ defect referrer, Diagnostic.Mentioned s.diagnostics.entries defect referrer →
    Diagnostic.Mentioned t.diagnostics.entries defect referrer := by exact fun _ _ held => held

theorem Grows.refl (s : State) : Grows s s where

theorem Grows.trans {s t u : State} (first : Grows s t) (second : Grows t u) : Grows s u where
  uses name use held := second.uses name use (first.uses name use held)
  seen m held := second.seen m (first.seen m held)
  expanded m held := second.expanded m (first.expanded m held)
  calls name := (first.calls name).trans (second.calls name)
  subclasses name := (first.subclasses name).trans (second.subclasses name)
  fields access owner := List.Subset.trans (first.fields access owner) (second.fields access owner)
  hostGlobals := List.Subset.trans first.hostGlobals second.hostGlobals
  listed defect held := second.listed defect (first.listed defect held)
  mentioned defect referrer held := second.mentioned _ _ (first.mentioned defect referrer held)

theorem grows_foldl {α : Type} {op : α → State → State} (grows : ∀ a s, Grows s (op a s))
    (entries : List α) (s : State) : Grows s (entries.foldl (fun s a => op a s) s) := by
  induction entries generalizing s with
  | nil => exact .refl s
  | cons first rest ih => exact (grows first s).trans (ih _)

theorem grows_mark (s : State) (name : Name) (use : Use) : Grows s (s.mark name use) where
  uses _ _ held := s.has_mark.mpr (.inr held)

theorem grows_report (s : State) (defect : Defect) (referrer : Referrer) :
    Grows s (s.report o defect referrer) where
  listed other held := by
    unfold report
    cases o.missing with
    | report =>
      rw [Diagnostic.entries_record]
      exact Diagnostic.listed_record.mpr (.inr held)
    | ignore => exact held
  mentioned other place held := by
    unfold report
    cases o.missing with
    | report =>
      rw [Diagnostic.entries_record]
      exact Diagnostic.mentioned_record.mpr (.inr held)
    | ignore => exact held

/-- A member that is not reached moves forward, and the queue changes in any way. -/
theorem grows_setProgress (s : State) {m : Slot} {progress : Progress} (queue : List Slot)
    (fresh : s.progress.get m ≠ .reached) (moved : progress ≠ .unseen) :
    Grows s { s with progress := s.progress.set m progress, queue := queue } where
  seen other held := by
    simp only [TotalMap.get_set]
    split
    · exact moved
    · exact held
  expanded other held := by
    simp only [TotalMap.get_set]
    split
    · next same => exact absurd (same ▸ held) fresh
    · exact held

theorem grows_ask (s : State) (name : Name) : Grows s (s.lineage p name).2 where

theorem grows_enqueue (s : State) (m : Slot) : Grows s (s.enqueue p m) := by
  unfold enqueue
  split
  · next unseen =>
    have fresh : s.progress.get m ≠ .reached := by simp [unseen]
    split
    · exact .refl s
    · exact grows_setProgress s _ fresh nofun
    · exact grows_setProgress s _ fresh nofun
  · exact .refl s

theorem grows_logCall (s : State) (receiver : Name) (site : CallSite) :
    Grows s (s.logCall receiver site) where
  calls name := by
    rw [calls_logCall]
    split
    · exact List.prefix_append ..
    · exact List.prefix_rfl

theorem grows_addSubclass (s : State) (ancestor cls : Name) :
    Grows s (s.addSubclass ancestor cls) where
  subclasses name := by
    simp only [addSubclass, TotalMap.get_modify]
    split
    · exact List.prefix_append ..
    · exact List.prefix_rfl

theorem grows_accessField (s : State) (access : Access) (owner field : Name) :
    Grows s (s.accessField access owner field) where
  fields _ _ _ held := s.mem_accessField.mpr (.inr held)

theorem grows_useGlobal (s : State) (name : Name) : Grows s (s.useGlobal name) where
  hostGlobals _ held := Ascending.mem_insert.mpr (.inr held)

theorem Change.grows {s t : State} (change : Change p o s t) : Grows s t := by
  cases change with
  | spread spread =>
    cases spread with
    | mark => exact grows_mark ..
    | report => exact grows_report ..
    | ask => exact grows_ask ..
    | enqueue => exact grows_enqueue ..
  | logCall => exact grows_logCall ..
  | addSubclass => exact grows_addSubclass ..
  | accessField => exact grows_accessField ..
  | useGlobal => exact grows_useGlobal ..

theorem Evolves.grows {s t : State} (evolves : Evolves p o s t) : Grows s t := by
  induction evolves with
  | refl => exact .refl s
  | tail _ change ih => exact ih.trans change.grows

theorem Spreads.grows {s t : State} (spreads : Spreads p o s t) : Grows s t :=
  spreads.evolves.grows

end TreeShake.State
