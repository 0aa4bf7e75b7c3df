import TreeShake.Proofs.Defects

set_option autoImplicit false

/-!
Everything in a state has a reason. For every family of facts that is closed under the rules, each
operation keeps a state inside the family if the fact that it starts from is in it. So a run stays
inside all closed families, and inside the least one in particular.
-/

namespace TreeShake.State

variable {p : Program} {config : Config} {known : Fact Slot → Prop} {s : State}

variable (p known) in
/-- The call stands in the code of a known member. -/
def Calls (receiver : Name) (site : CallSite) : Prop :=
  ∃ m, site.referrer = .member (p.ref m) ∧ known (.body m) ∧
    .call receiver site.method ∈ p.dependencies m

variable (p config known) in
/-- What the state holds is known, and the defects that it reports are there. -/
structure Justified (s : State) : Prop where
  fresh : s.Fresh p
  uses : ∀ name use, s.has name use = true → known (.use name use)
  members : ∀ m, s.progress.get m ≠ .unseen → ∀ fact, p.liveness? m = some fact → known fact
  calls : ∀ receiver, ∀ site ∈ s.calls receiver, Calls p known receiver site
  subclasses : ∀ ancestor, ∀ cls ∈ s.subclasses.get ancestor,
    known (.use cls .instantiated) ∧ p.Inherits cls ancestor
  fields : ∀ access owner, ∀ field ∈ (s.fields access).get owner, known (access.fact owner field)
  hostGlobals : ∀ name ∈ s.hostGlobals, known (.global name)
  defects : ∀ defect referrer, Diagnostic.Mentioned s.diagnostics.entries defect referrer →
    config.missing = .report ∧ p.Refers config known defect referrer
  referred : ∀ defect, Diagnostic.Listed s.diagnostics.entries defect →
    ∃ referrer, Diagnostic.Mentioned s.diagnostics.entries defect referrer

theorem justified_initial : Justified p config known {} where
  fresh := fresh_initial
  uses name use held := by simp [has, TotalMap.get_empty] at held
  members m held := by simp [TotalMap.get_empty] at held
  calls receiver site held := by simp at held
  subclasses ancestor cls held := by simp [TotalMap.get_empty] at held
  fields access owner field held := by
    cases access <;> simp [State.fields, TotalMap.get_empty] at held
  hostGlobals name held := by simp at held
  defects defect referrer held := absurd held.choose_spec.1 List.not_mem_nil
  referred defect held := absurd held.choose_spec.1 List.not_mem_nil

namespace Justified

/-! The elementary additions. -/

theorem mark (justified : Justified p config known s) {name : Name} {use : Use}
    (live : known (.use name use)) : Justified p config known (s.mark name use) :=
  { justified with
    uses := by
      intro other wanted held
      rcases s.has_mark.mp held with ⟨rfl, rfl⟩ | held
      · exact live
      · exact justified.uses other wanted held }

theorem report (justified : Justified p config known s) {defect : Defect} {referrer : Referrer}
    (refers : p.Refers config known defect referrer) :
    Justified p config known (s.report config.toOptions defect referrer) := by
  unfold State.report
  cases mode : config.missing with
  | ignore => exact justified
  | report =>
    refine { justified with defects := ?_, referred := ?_ }
    · intro other place mentioned
      rw [Diagnostic.entries_record] at mentioned
      rcases Diagnostic.mentioned_record.mp mentioned with ⟨rfl, rfl⟩ | mentioned
      · exact ⟨mode, refers⟩
      · exact justified.defects other place mentioned
    · intro other listed
      rw [Diagnostic.entries_record] at listed ⊢
      rcases Diagnostic.listed_record.mp listed with rfl | listed
      · exact ⟨referrer, Diagnostic.mentioned_record.mpr (.inl ⟨rfl, rfl⟩)⟩
      · obtain ⟨place, mentioned⟩ := justified.referred other listed
        exact ⟨place, Diagnostic.mentioned_record.mpr (.inr mentioned)⟩

theorem ask (justified : Justified p config known s) (name : Name) :
    Justified p config known (s.lineage p name).2 :=
  { justified with fresh := justified.fresh.ask name }

theorem asks {t : State} (justified : Justified p config known s) (asks : Asks p s t) :
    Justified p config known t := by
  induction asks with
  | refl => exact justified
  | tail _ asked ih =>
    obtain ⟨name, rfl⟩ := asked
    exact ih.ask name

theorem setProgress (justified : Justified p config known s) {m : Slot} {progress : Progress}
    (queue : List Slot) (live : ∀ fact, p.liveness? m = some fact → known fact) :
    Justified p config known { s with progress := s.progress.set m progress, queue := queue } :=
  { justified with
    members := by
      intro other held
      rw [TotalMap.get_set] at held
      split at held
      · next same => exact same ▸ live
      · exact justified.members other held }

theorem enqueue (justified : Justified p config known s) {m : Slot}
    (live : ∀ fact, p.liveness? m = some fact → known fact) :
    Justified p config known (s.enqueue p m) := by
  unfold State.enqueue
  split
  · split
    · exact justified
    · exact justified.setProgress s.queue live
    · exact justified.setProgress _ live
  · exact justified

theorem logCall (justified : Justified p config known s) {receiver : Name} {site : CallSite}
    (calls : Calls p known receiver site) : Justified p config known (s.logCall receiver site) :=
  { justified with
    calls := by
      intro other entry held
      rw [calls_logCall] at held
      split at held
      · next same =>
        rcases List.mem_append.mp held with held | held
        · exact justified.calls other entry held
        · rw [List.mem_singleton.mp held, ← same]
          exact calls
      · exact justified.calls other entry held }

theorem addSubclass (justified : Justified p config known s) {ancestor cls : Name}
    (made : known (.use cls .instantiated)) (inherits : p.Inherits cls ancestor) :
    Justified p config known (s.addSubclass ancestor cls) :=
  { justified with
    subclasses := by
      intro other below held
      rcases mem_addSubclass.mp held with held | ⟨rfl, rfl⟩
      · exact justified.subclasses other below held
      · exact ⟨made, inherits⟩ }

theorem accessField (justified : Justified p config known s) {access : Access} {owner field : Name}
    (live : known (access.fact owner field)) :
    Justified p config known (s.accessField access owner field) :=
  { justified with
    fields := by
      intro kind other name held
      rcases s.mem_accessField.mp held with ⟨rfl, rfl, rfl⟩ | held
      · exact live
      · exact justified.fields kind other name held }

theorem useGlobal (justified : Justified p config known s) {name : Name}
    (live : known (.global name)) : Justified p config known (s.useGlobal name) :=
  { justified with
    hostGlobals := by
      intro other held
      rcases Ascending.mem_insert.mp held with rfl | held
      · exact live
      · exact justified.hostGlobals other held }

/-- A sequence of operations, each of which stays inside the family. -/
theorem foldl {α : Type} {op : α → State → State} {entries : List α}
    (each : ∀ a ∈ entries, ∀ s, Justified p config known s → Justified p config known (op a s))
    (justified : Justified p config known s) :
    Justified p config known (entries.foldl (fun s a => op a s) s) := by
  induction entries generalizing s with
  | nil => exact justified
  | cons first rest ih =>
    apply ih
    · exact fun a member => each a (List.mem_cons_of_mem _ member)
    · exact each first List.mem_cons_self s justified

theorem require (justified : Justified p config known s) {name : Name} {referrer : Referrer}
    {next : State → State}
    (missing : p.contains name = false → p.Refers config known (.missingUnit name) referrer)
    (present : p.contains name = true → Justified p config known (next s)) :
    Justified p config known (s.require p config.toOptions name referrer next) := by
  unfold State.require
  split
  · next found => exact present found
  · next absent => exact justified.report (missing (by simpa using absent))

/-! The operations. What an operation writes down follows from what it was called for. -/

section Operations

variable (justified : Justified p config known s) (closed : p.Closed config known)
include justified closed

omit closed in
theorem requireParts {name : Name} (reached : known (.use name .reached)) :
    Justified p config known (s.requireAll p config.toOptions
      (p.parents name ++ p.fieldClasses name) (.unit name)) := by
  apply justified.foldl
  intro other member s justified
  apply justified.require
  · exact .partMissing reached member
  · exact fun _ => justified

theorem reachFrom {rounds : Nat} {pending : List Name}
    (live : ∀ name ∈ pending, known (.use name .reached)) :
    Justified p config known (s.reachFrom p config.toOptions rounds pending) := by
  induction rounds generalizing pending s with
  | zero => exact justified
  | succ rounds ih =>
    rw [State.reachFrom]
    split
    · exact justified
    · next name rest dropped =>
      obtain ⟨_, member, inside, _⟩ := mem_of_dropWhile_eq_cons dropped
      have reached := live name member
      apply ih ((justified.mark reached).requireParts reached)
      intro other later
      rcases List.mem_append.mp later with above | left
      · have above := List.mem_filter.mp (List.mem_reverse.mp above)
        exact closed _ (.parent reached ⟨above.1, above.2⟩)
      · exact live other (inside left)

theorem reach {name : Name} (live : known (.use name .reached)) :
    Justified p config known (s.reach p config.toOptions name) := by
  apply justified.reachFrom closed
  intro other member
  rw [List.mem_singleton.mp member]
  exact live

theorem activate {name : Name} (live : known (.use name .initialized)) :
    Justified p config known (s.activate p config.toOptions name) := by
  unfold State.activate
  split
  · exact justified
  · have reached := (justified.mark live).reach closed (closed _ (.reached live))
    dsimp only
    split
    · next m found => exact reached.enqueue fun fact runs => closed _ (.initializer live found runs)
    · exact reached

theorem schedule {m : Slot} (live : ∀ fact, p.liveness? m = some fact → known fact) :
    Justified p config known (s.schedule p config.toOptions m) := by
  unfold State.schedule
  split
  · split
    · exact justified
    · next declaration =>
      have contract : known (.contract m) := live _ (Program.liveness?_of_contract declaration)
      exact (justified.enqueue live).reach closed (closed _ (.contractOwner contract))
    · next body =>
      have runs : known (.body m) := live _ (Program.liveness?_of_body body)
      exact (justified.enqueue live).activate closed (closed _ (.bodyOwner runs))
  · exact justified

theorem resolve {receiver cls : Name} {site : CallSite} (calls : Calls p known receiver site)
    (made : known (.use cls .instantiated)) (inherits : p.Inherits cls receiver) :
    Justified p config known (s.resolve p config.toOptions cls site) := by
  obtain ⟨m, named, body, member⟩ := calls
  have asked := justified.asks (asks_lookup cls site.method s)
  unfold State.resolve
  dsimp only
  rw [justified.fresh.lookup_fst]
  cases found : p.target? cls site.method with
  | some target =>
    apply asked.schedule closed
    exact fun fact live => closed _ (.call body member made inherits found live)
  | none =>
    dsimp only
    split
    · exact asked
    · next notHost =>
      have missing := Program.target?_eq_none_iff.mp found
      rw [named]
      exact asked.report (.call body member made inherits missing (by simpa using notHost))

theorem instantiateBelow {cls ancestor : Name} (made : known (.use cls .instantiated))
    (inherits : p.Inherits cls ancestor) :
    Justified p config known (s.instantiateBelow p config.toOptions cls ancestor) := by
  have data : known (.use ancestor .dataAccessed) := closed _ (.instanceData made inherits)
  have added := (justified.mark data).addSubclass made inherits
  refine added.foldl fun site member s justified => ?_
  exact justified.resolve closed (added.calls ancestor site member) made inherits

theorem instantiate {cls : Name} {referrer : Referrer}
    (allowed : ∀ kind, p.kind? cls = some kind → kind.isInstantiable = true →
      known (.use cls .instantiated))
    (refused : ∀ kind, p.kind? cls = some kind → kind.isInstantiable = false →
      p.Refers config known (.notInstantiable cls) referrer) :
    Justified p config known (s.instantiate p config.toOptions cls referrer) := by
  unfold State.instantiate
  cases found : p.kind? cls with
  | none => exact justified
  | some kind =>
    dsimp only
    split
    · next other => exact justified.report (refused kind found (by simpa using other))
    · next same =>
      split
      · exact justified
      · have made := allowed kind found (by simpa using same)
        have active := (justified.mark made).activate closed (closed _ (.instanceCode made))
        refine (active.ask cls).foldl fun ancestor above s justified => ?_
        rw [active.fresh.lineage_fst] at above
        exact justified.instantiateBelow closed made (p.inherits_of_mem_ancestors above)

theorem call {receiver method : Name} {m : Slot} (body : known (.body m))
    (member : .call receiver method ∈ p.dependencies m) :
    Justified p config known (s.call p config.toOptions receiver method (.member (p.ref m))) := by
  unfold State.call
  split
  · exact justified
  · have calls : Calls p known receiver ⟨method, .member (p.ref m)⟩ := ⟨m, rfl, body, member⟩
    have logged := justified.logCall calls
    have kept : Justified p config known
        ((s.logCall receiver ⟨method, .member (p.ref m)⟩).keepContract p config.toOptions receiver
          method) := by
      unfold keepContract
      split
      · next kept =>
        dsimp only
        rw [logged.fresh.lineage_fst, ← Program.contract?]
        split
        · next declaration found =>
          apply (logged.ask receiver).schedule closed
          exact fun fact live => closed _ (.contract kept body member found live)
        · exact logged.ask receiver
      · exact logged
    refine kept.foldl fun cls below s justified => ?_
    obtain ⟨made, inherits⟩ := kept.subclasses receiver cls below
    exact justified.resolve closed calls made inherits

theorem callExact {owner : Name} {selector : Selector} {referrer : Referrer}
    (answered : ∀ fact, p.ExactCall owner selector fact → known fact)
    (unanswered : p.Unanswered owner selector →
      p.Refers config known (.missingMember ⟨owner, selector⟩) referrer) :
    Justified p config known (s.callExact p config.toOptions owner selector referrer) := by
  have asked := justified.asks (asks_lookupExact owner selector s)
  unfold State.callExact
  dsimp only
  rw [justified.fresh.lookupExact_fst]
  cases target : p.exactTarget? owner selector with
  | some m =>
    apply asked.schedule closed
    exact fun fact live => answered fact (Program.exactCall_iff.mpr (.inl ⟨m, target, live⟩))
  | none =>
    dsimp only
    split
    · next host =>
      apply asked.reach closed
      exact answered _ (Program.exactCall_iff.mpr (.inr ⟨target, host, rfl⟩))
    · next silent => exact asked.report (unanswered ⟨target, by simpa using silent⟩)

theorem loadModule {name : Name} {referrer : Referrer} (loads : p.Loads config known referrer name)
    (refused : ∀ kind, p.kind? name = some kind → kind.isModule = false →
      p.Refers config known (.notAModule name) referrer) :
    Justified p config known (s.loadModule p config.toOptions name referrer) := by
  unfold State.loadModule
  cases found : p.kind? name with
  | none => exact justified
  | some kind =>
    dsimp only
    split
    · next other => exact justified.report (refused kind found (by simpa using other))
    · next same =>
      split
      · exact justified
      · have module : kind.isModule = true := by simpa using same
        have accessed := loads.accessed closed found module
        have made : Justified p config known ((s.mark name .moduleAccessed).instantiate p
            config.toOptions name referrer) := by
          apply (justified.mark accessed).instantiate closed
          · exact fun _ _ _ => closed _ (.moduleInstance accessed)
          · intro other again refused
            obtain rfl := Option.some.inj (found.symm.trans again)
            rw [UnitKind.isInstantiable_of_isModule module] at refused
            cases refused
        apply made.callExact closed
        · exact fun fact target => closed _ (.moduleConstructor accessed target)
        · exact .moduleConstructor loads found module

theorem follow {m : Slot} {edge : Edge} (body : known (.body m))
    (member : edge ∈ p.dependencies m) :
    Justified p config known (s.follow p config.toOptions edge (.member (p.ref m))) := by
  have missing : ∀ name, edge.unit? = some name → p.contains name = false →
      p.Refers config known (.missingUnit name) (.member (p.ref m)) := fun name named absent =>
    .codeMissing body (Dependencies.edge_mem_demands.mpr member) named absent
  -- Reading or writing a field runs code of its owner.
  have accesses : ∀ owner, (p.dependencies m).Accesses owner → p.contains owner = true →
      Justified p config known (s.activate p config.toOptions owner) := fun owner accesses present =>
    justified.activate closed (closed _ (.access body accesses present))
  unfold State.follow
  cases edge with
  | readField owner field =>
    refine justified.require (missing owner rfl) fun present => ?_
    have active := accesses owner (.inl (Dependencies.mem_heads member)) present
    exact active.accessField (closed _ (.read body member present))
  | writeField owner field =>
    refine justified.require (missing owner rfl) fun present => ?_
    have active := accesses owner (.inr (Dependencies.mem_heads member)) present
    exact active.accessField (closed _ (.write body member present))
  | call receiver method =>
    exact justified.require (missing receiver rfl) fun _ => justified.call closed body member
  | callExact owner target =>
    refine justified.require (missing owner rfl) fun present => ?_
    apply justified.callExact closed
    · exact fun fact call => closed _ (.exactCall body member call)
    · exact .exactCall body member present
  | instantiate cls =>
    refine justified.require (missing cls rfl) fun _ => ?_
    apply justified.instantiate closed
    · exact fun kind found allowed => closed _ (.instantiate body member found allowed)
    · exact fun kind => .notInstantiable body member
  | loadModule name =>
    refine justified.require (missing name rfl) fun _ => ?_
    exact justified.loadModule closed (.code body member) fun kind => .notModule body member
  | testInstance name =>
    refine justified.require (missing name rfl) fun present => ?_
    have tested := closed _ (.testInstance body member present)
    exact (justified.mark tested).reach closed (closed _ (.reached tested))
  | classData name =>
    refine justified.require (missing name rfl) fun present => ?_
    have data := closed _ (.classData body member present)
    exact (justified.mark data).reach closed (closed _ (.reached data))
  | mention name => exact justified.require (missing name rfl) fun _ => justified
  | hostGlobal name => exact justified.useGlobal (closed _ (.hostGlobal body member))

theorem meet {m : Slot} {demand : Demand} (body : known (.body m))
    (member : demand ∈ (p.dependencies m).demands) :
    Justified p config known (s.meet p config.toOptions demand (.member (p.ref m))) := by
  unfold State.meet
  cases demand with
  | unit name =>
    apply justified.require
    · exact .codeMissing body member rfl
    · exact fun _ => justified
  | code name =>
    apply justified.require
    · exact .codeMissing body member rfl
    · intro present
      have accesses := Dependencies.code_mem_demands.mp member
      exact justified.activate closed (closed _ (.access body accesses present))
  | edge edge => exact justified.follow closed body (Dependencies.edge_mem_demands.mp member)

theorem exposeUnit {name : Name} {u : UnitSummary} (found : p.find? name = some u)
    (exported : u.isExported = true) :
    Justified p config known (s.exposeUnit p config.toOptions name) := by
  have kind : p.kind? name = some u.kind := by simp [Program.kind?, found]
  unfold State.exposeUnit
  split
  · next offered =>
    obtain ⟨v, again, exposes⟩ := Program.exposes_iff.mp offered
    obtain rfl := Option.some.inj (found.symm.trans again)
    rw [kind]
    dsimp only
    split
    · next module =>
      apply justified.loadModule closed (.exposed found exported exposes)
      intro other again notModule
      obtain rfl := Option.some.inj (kind.symm.trans again)
      simp [module] at notModule
    · next notModule =>
      split
      · next allowed =>
        apply justified.instantiate closed
        · intro _ _ _
          exact closed _ (.exposedClass found exported exposes (by simpa using notModule) allowed)
        · intro other again refused
          obtain rfl := Option.some.inj (kind.symm.trans again)
          simp [allowed] at refused
      · exact justified
  · exact justified

theorem addRoot {root : Root} (member : root ∈ config.roots.toList) :
    Justified p config known (s.addRoot p config.toOptions root) := by
  have missing : p.contains root.owner = false →
      p.Refers config known (.missingUnit root.owner) .roots := .rootMissing member
  unfold State.addRoot
  cases root with
  | unit name =>
    refine justified.require missing fun present => ?_
    exact justified.reach closed (closed _ (.unitRoot member present))
  | member m =>
    refine justified.require missing fun present => ?_
    apply justified.callExact closed
    · exact fun fact call => closed _ (.memberRoot member call)
    · exact .rootMember member present
  | module name =>
    refine justified.require missing fun _ => ?_
    exact justified.loadModule closed (.root member) fun kind => .rootNotModule member
  | instantiate cls ctor =>
    refine justified.require missing fun present => ?_
    have made : Justified p config known (s.instantiate p config.toOptions cls .roots) := by
      apply justified.instantiate closed
      · exact fun kind found allowed => closed _ (.instanceRoot member found allowed)
      · exact fun kind => .rootNotInstantiable member
    apply made.callExact closed
    · exact fun fact call => closed _ (.constructorRoot member call)
    · exact .rootConstructor member present

theorem plant {seed : Seed} (member : seed ∈ p.seeds config.roots) :
    Justified p config known (s.plant p config.toOptions seed) := by
  unfold State.plant
  cases seed with
  | object =>
    apply justified.require
    · exact .objectMissing
    · exact fun present => justified.reach closed (closed _ (.object present))
  | boxed cls =>
    have boxed := Program.boxed_mem_seeds.mp member
    apply justified.instantiate closed
    · exact fun _ _ _ => closed _ (.boxed boxed)
    · intro kind found refused
      obtain rfl := Option.some.inj (boxed.symm.trans found)
      cases refused
  | exported name =>
    obtain ⟨u, found, exported⟩ := Program.exported_mem_seeds.mp member
    have reached := justified.reach closed (closed _ (.exported found exported))
    refine (reached.exposeUnit closed found exported).foldl fun m visible s justified => ?_
    obtain ⟨rfl, v, again, summary, inside, offered⟩ := Program.mem_exports.mp visible
    obtain rfl := Option.some.inj (found.symm.trans again)
    apply justified.schedule closed
    exact fun fact live => closed _ (.exportedMember found exported inside offered live)
  | root root => exact justified.addRoot closed (Program.root_mem_seeds.mp member)

/-- Only a member that is known already is expanded. -/
theorem step (valid : Worklist p s) : Justified p config known (s.step p config.toOptions) := by
  rcases s.step_cases with ⟨_, same⟩ | ⟨m, rest, front, same⟩
  · rwa [same]
  · have waits : m ∈ s.queue := by simp [front]
    have pending := (valid.pending_iff m).mpr waits
    have live := justified.members m (by simp [pending])
    have popped : Justified p config known (s.pop m rest) := justified.setProgress rest live
    have body := live _ (Program.liveness?_of_body (valid.bodies m waits))
    rw [same]
    exact popped.foldl fun demand member s justified => justified.meet closed body member

end Operations

end Justified

/-- A run stays inside every closed family. -/
theorem justified_run (closed : p.Closed config known) :
    Justified p config known (run p config.toOptions config.roots) := by
  have planted : Justified p config known (seeded p config.toOptions config.roots) :=
    justified_initial.foldl fun seed member s justified => justified.plant closed member
  have valid : Worklist p (seeded p config.toOptions config.roots) := worklist_seeded config.roots
  have final := @steps_induction p config.toOptions
    (fun s => Worklist p s ∧ Justified p config known s)
    (fun s ⟨valid, justified⟩ => ⟨valid.step, justified.step closed valid⟩)
    (seeded p config.toOptions config.roots) p.bodyCount ⟨valid, planted⟩
  exact final.2

theorem Justified.sound (justified : Justified p config known s) {fact : Fact Slot}
    (knows : s.Knows p fact) : known fact := by
  cases fact with
  | use name use => exact justified.uses name use knows
  | body m => exact justified.members m knows.1 _ (Program.liveness?_of_body knows.2)
  | contract m => exact justified.members m knows.1 _ (Program.liveness?_of_contract knows.2)
  | read owner field => exact justified.fields .read owner field knows
  | write owner field => exact justified.fields .write owner field knows
  | global name => exact justified.hostGlobals name knows

/-- At the end of a run exactly the live facts are known. -/
theorem knows_run_iff {fact : Fact Slot} :
    (run p config.toOptions config.roots).Knows p fact ↔ p.Live config fact := by
  constructor
  · exact (justified_run fun _ => Program.Live.derived).sound
  · exact Program.Live.least complete_run.closed

theorem reports_run (reporting : config.missing = .report) {defect : Defect} {referrer : Referrer}
    (refers : p.Refers config (p.Live config) defect referrer) :
    Diagnostic.Listed (run p config.toOptions config.roots).diagnostics.entries defect ∧
      ((∀ m, defect ≠ .missingMember m) →
        Diagnostic.Mentioned (run p config.toOptions config.roots).diagnostics.entries defect
          referrer) := by
  apply complete_run.reports reporting
  rwa [show (run p config.toOptions config.roots).Knows p = p.Live config from
    funext fun _ => propext knows_run_iff]

/-- The defects that a run lists are those that the live part of the program shows. -/
theorem listed_run_iff {defect : Defect} :
    Diagnostic.Listed (run p config.toOptions config.roots).diagnostics.entries defect ↔
      config.missing = .report ∧ ∃ referrer, p.Refers config (p.Live config) defect referrer := by
  have justified : Justified p config (p.Live config) (run p config.toOptions config.roots) :=
    justified_run fun _ => .derived
  constructor
  · intro listed
    obtain ⟨referrer, mentioned⟩ := justified.referred defect listed
    obtain ⟨reporting, refers⟩ := justified.defects defect referrer mentioned
    exact ⟨reporting, referrer, refers⟩
  · rintro ⟨reporting, referrer, refers⟩
    exact (reports_run reporting refers).1

theorem mentioned_run_iff {defect : Defect} {referrer : Referrer}
    (ofUnit : ∀ m, defect ≠ .missingMember m) :
    Diagnostic.Mentioned (run p config.toOptions config.roots).diagnostics.entries defect referrer ↔
      config.missing = .report ∧ p.Refers config (p.Live config) defect referrer := by
  have justified : Justified p config (p.Live config) (run p config.toOptions config.roots) :=
    justified_run fun _ => .derived
  constructor
  · exact justified.defects defect referrer
  · rintro ⟨reporting, refers⟩
    exact (reports_run reporting refers).2 ofUnit

end TreeShake.State
