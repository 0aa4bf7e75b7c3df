import TreeShake.Proofs.Exactness

set_option autoImplicit false

/-!
The report lists exactly the defects of the live program. They are said here without referrers and
without the analysis: which units are named and missing, which units are used as something they are
not, and which members are called and found neither in the program nor with the host.
-/

namespace TreeShake

namespace Dependencies

/-- The units that a record names, by an edge or by a group. A group may be empty. -/
def Names (d : Dependencies) (name : Name) : Prop :=
  name ∈ d.reads.map Prod.fst ∨ name ∈ d.writes.map Prod.fst ∨ name ∈ d.calls.map Prod.fst ∨
    name ∈ d.exactCalls.map Prod.fst ∨ name ∈ d.instantiated ∨ name ∈ d.modules ∨
    name ∈ d.tested ∨ name ∈ d.classData ∨ name ∈ d.mentioned

/-- All demands of a group concern its unit. -/
theorem exists_mem_groupDemands_iff {β : Type} (head : Name → Demand) (edge : Name → β → Edge)
    (heads : ∀ owner, (head owner).unit? = some owner)
    (edges : ∀ owner value, (edge owner value).unit? = some owner) (groups : Groups β)
    (name : Name) :
    (∃ demand ∈ groupDemands head edge groups, demand.unit? = some name) ↔
      name ∈ groups.map Prod.fst := by
  constructor
  · rintro ⟨demand, member, named⟩
    obtain ⟨group, inside, member⟩ := List.mem_flatMap.mp member
    have owner : demand.unit? = some group.1 := by
      rcases List.mem_cons.mp member with rfl | member
      · exact heads group.1
      · obtain ⟨value, _, rfl⟩ := List.mem_map.mp member
        exact edges group.1 value
    obtain rfl := Option.some.inj (owner.symm.trans named)
    exact List.mem_map_of_mem inside
  · intro member
    obtain ⟨group, inside, rfl⟩ := List.mem_map.mp member
    exact ⟨head group.1, List.mem_flatMap.mpr ⟨group, inside, List.mem_cons_self⟩, heads group.1⟩

theorem names_iff {d : Dependencies} {name : Name} :
    d.Names name ↔ ∃ demand ∈ d.demands, demand.unit? = some name := by
  have reads :=
    exists_mem_groupDemands_iff .code .readField (fun _ => rfl) (fun _ _ => rfl) d.reads name
  have writes :=
    exists_mem_groupDemands_iff .code .writeField (fun _ => rfl) (fun _ _ => rfl) d.writes name
  have calls := exists_mem_groupDemands_iff .unit .call (fun _ => rfl) (fun _ _ => rfl) d.calls name
  have exactCalls :=
    exists_mem_groupDemands_iff .unit .callExact (fun _ => rfl) (fun _ _ => rfl) d.exactCalls name
  simp only [Names, demands, List.mem_append, or_and_right, exists_or, reads, writes, calls,
    exactCalls]
  simp [Demand.unit?, Edge.unit?, or_assoc]

end Dependencies

namespace Program

section Defects

variable (p : Program) (config : Config) (known : Fact Slot → Prop)

/-- The edge is in the record of a body that runs. -/
def Follows (edge : Edge) : Prop := ∃ m, known (.body m) ∧ edge ∈ p.dependencies m

/-- The unit is the root of the hierarchy, or it is named by a root, by a reached unit or by a body
that runs. -/
def NamesUnit (name : Name) : Prop :=
  name = Name.object ∨ (∃ root ∈ config.roots.toList, root.owner = name) ∨
    (∃ user, known (.use user .reached) ∧ name ∈ p.parents user ++ p.fieldClasses user) ∨
    ∃ m, known (.body m) ∧ (p.dependencies m).Names name

/-- The member is the target of an exact call: of a root, of a body that runs, or of the loading of
a module. -/
def CallsMember (m : MemberRef) : Prop :=
  .member m ∈ config.roots.toList ∨
    (∃ ctor, .instantiate m.owner ctor ∈ config.roots.toList ∧ m.selector = .ctor ctor) ∨
    p.Follows known (.callExact m.owner m.selector) ∨
    (known (.use m.owner .moduleAccessed) ∧ m.selector = .ctor Name.defaultConstructor)

/-- The member is not there. A method may be inherited or provided by the host's superclasses, any
other member has to be in the unit or the unit with the host. -/
def LacksMember (m : MemberRef) : Prop :=
  p.declares m = false ∧
    if m.selector.space = .pub then
      p.implementation? m.owner m.selector.name = none ∧ p.isHostProvided m.owner = false
    else p.kind? m.owner ≠ some .nativeClass

/-- A virtual call meets an instance of the class, and nothing answers it there. -/
def LacksImplementation (m : MemberRef) : Prop :=
  ∃ receiver method, m.selector = .method method ∧ p.Follows known (.call receiver method) ∧
    known (.use m.owner .instantiated) ∧ p.Inherits m.owner receiver ∧
    p.implementation? m.owner method = none ∧ p.isHostProvided m.owner = false

/-- What is wrong with a program of which the known facts are live. -/
def Defective : Defect → Prop
  | .missingUnit name => p.contains name = false ∧ p.NamesUnit config known name
  | .notInstantiable cls => p.kind? cls = some .interface ∧
      ((∃ ctor, .instantiate cls ctor ∈ config.roots.toList) ∨ p.Follows known (.instantiate cls))
  | .notAModule name => (∃ kind, p.kind? name = some kind ∧ kind.isModule = false) ∧
      (.module name ∈ config.roots.toList ∨ p.Follows known (.loadModule name))
  | .missingMember m => p.contains m.owner = true ∧
      (p.LacksImplementation known m ∨ p.LacksMember m ∧ p.CallsMember config known m)

end Defects

variable {p : Program} {config : Config}

theorem unanswered_iff {m : MemberRef} : p.Unanswered m.owner m.selector ↔ p.LacksMember m := by
  obtain ⟨owner, space, name⟩ := m
  cases space with
  | pub =>
    simp only [Unanswered, LacksMember, exactTarget?, hostAnswers, if_true, Option.or_eq_none_iff,
      target?_eq_none_iff, declares_eq_false_iff]
    constructor
    · rintro ⟨⟨missing, undeclared⟩, host⟩
      exact ⟨undeclared, missing, host⟩
    · rintro ⟨undeclared, missing, host⟩
      exact ⟨⟨missing, undeclared⟩, host⟩
  | priv | ctor | static =>
    have native : (p.kind? owner).any UnitKind.isNative = false ↔
        p.kind? owner ≠ some .nativeClass := by
      rw [← Bool.not_eq_true, any_isNative_iff]
    simp only [Unanswered, LacksMember, exactTarget?, hostAnswers, reduceCtorEq, if_false,
      declares_eq_false_iff, native]

theorem isInstantiable_eq_false_iff {kind : UnitKind} :
    kind.isInstantiable = false ↔ kind = .interface := by
  cases kind <;> decide

theorem liveness?_ne_use {m : Slot} {name : Name} {use : Use} :
    p.liveness? m ≠ some (.use name use) := by
  intro live
  rcases liveness?_eq_some_iff.mp live with ⟨_, same⟩ | ⟨_, same⟩
  · cases same
  · cases same

theorem ExactCall.use_eq {owner name : Name} {selector : Selector} {use : Use}
    (call : p.ExactCall owner selector (.use name use)) : use = .reached := by
  cases call with
  | inherited _ live => exact absurd live liveness?_ne_use
  | declared _ _ live => exact absurd live liveness?_ne_use
  | hostMethod => rfl
  | hostMember => rfl

/-- A module is accessed because someone loads it. -/
theorem Live.loads {name : Name} (live : p.Live config (.use name .moduleAccessed)) :
    ∃ referrer kind, p.Loads config (p.Live config) referrer name ∧ p.kind? name = some kind ∧
      kind.isModule = true := by
  obtain ⟨derives⟩ := live
  cases derives with
  | @exposedModule _ u found exported exposes module =>
    exact ⟨_, u.kind, .exposed found exported exposes, by simp [kind?, found], module⟩
  | moduleRoot member found module => exact ⟨_, _, .root member, found, module⟩
  | loadModule body edge found module => exact ⟨_, _, .code body edge, found, module⟩
  | exportedMember _ _ _ _ live => exact absurd live liveness?_ne_use
  | call _ _ _ _ _ live => exact absurd live liveness?_ne_use
  | contract _ _ _ _ live => exact absurd live liveness?_ne_use
  | initializer _ _ live => exact absurd live liveness?_ne_use
  | memberRoot _ call => cases call.use_eq
  | constructorRoot _ call => cases call.use_eq
  | exactCall _ _ call => cases call.use_eq
  | moduleConstructor _ call => cases call.use_eq

/-- A class with instances may have them. -/
theorem Live.instantiable {cls : Name} (live : p.Live config (.use cls .instantiated)) :
    ∃ kind, p.kind? cls = some kind ∧ kind.isInstantiable = true := by
  obtain ⟨derives⟩ := live
  cases derives with
  | boxed kind => exact ⟨_, kind, rfl⟩
  | @exposedClass _ u found _ _ _ allowed => exact ⟨u.kind, by simp [kind?, found], allowed⟩
  | instanceRoot _ found allowed => exact ⟨_, found, allowed⟩
  | instantiate _ _ found allowed => exact ⟨_, found, allowed⟩
  | moduleInstance loaded =>
    obtain ⟨_, kind, _, found, module⟩ := loaded.loads
    exact ⟨kind, found, UnitKind.isInstantiable_of_isModule module⟩
  | exportedMember _ _ _ _ live => exact absurd live liveness?_ne_use
  | call _ _ _ _ _ live => exact absurd live liveness?_ne_use
  | contract _ _ _ _ live => exact absurd live liveness?_ne_use
  | initializer _ _ live => exact absurd live liveness?_ne_use
  | memberRoot _ call => cases call.use_eq
  | constructorRoot _ call => cases call.use_eq
  | exactCall _ _ call => cases call.use_eq
  | moduleConstructor _ call => cases call.use_eq

/-- Whoever refers to a defect shows that it is there. -/
theorem Refers.defective {defect : Defect} {referrer : Referrer}
    (refers : p.Refers config (p.Live config) defect referrer) :
    p.Defective config (p.Live config) defect := by
  cases refers with
  | objectMissing missing => exact ⟨missing, .inl rfl⟩
  | rootMissing member missing => exact ⟨missing, .inr (.inl ⟨_, member, rfl⟩)⟩
  | partMissing reached member missing =>
    exact ⟨missing, .inr (.inr (.inl ⟨_, reached, member⟩))⟩
  | codeMissing body member named missing =>
    have names := Dependencies.names_iff.mpr ⟨_, member, named⟩
    exact ⟨missing, .inr (.inr (.inr ⟨_, body, names⟩))⟩
  | rootNotModule member found other => exact ⟨⟨_, found, other⟩, .inl member⟩
  | notModule body edge found other => exact ⟨⟨_, found, other⟩, .inr ⟨_, body, edge⟩⟩
  | rootNotInstantiable member found other =>
    obtain rfl := isInstantiable_eq_false_iff.mp other
    exact ⟨found, .inl ⟨_, member⟩⟩
  | notInstantiable body edge found other =>
    obtain rfl := isInstantiable_eq_false_iff.mp other
    exact ⟨found, .inr ⟨_, body, edge⟩⟩
  | rootMember member present unanswered =>
    exact ⟨present, .inr ⟨unanswered_iff.mp unanswered, .inl member⟩⟩
  | @rootConstructor cls ctor member present unanswered =>
    have lacks := unanswered_iff (m := ⟨cls, .ctor ctor⟩) |>.mp unanswered
    exact ⟨present, .inr ⟨lacks, .inr (.inl ⟨_, member, rfl⟩)⟩⟩
  | @exactCall _ owner selector body edge present unanswered =>
    have lacks := unanswered_iff (m := ⟨owner, selector⟩) |>.mp unanswered
    exact ⟨present, .inr ⟨lacks, .inr (.inr (.inl ⟨_, body, edge⟩))⟩⟩
  | @moduleConstructor _ name _ loads found module unanswered =>
    have lacks := unanswered_iff (m := ⟨name, .ctor Name.defaultConstructor⟩) |>.mp unanswered
    have accessed := loads.accessed (fun _ => Live.derived) found module
    exact ⟨contains_of_kind? found, .inr ⟨lacks, .inr (.inr (.inr ⟨accessed, rfl⟩))⟩⟩
  | call body edge made inherits missing notHost =>
    exact ⟨made.declaredFact,
      .inl ⟨_, _, rfl, ⟨_, body, edge⟩, made, inherits, missing, notHost⟩⟩

/-- A defect that is there has someone who refers to it. -/
theorem Defective.refers {defect : Defect} (defective : p.Defective config (p.Live config) defect) :
    ∃ referrer, p.Refers config (p.Live config) defect referrer := by
  cases defect with
  | missingUnit name =>
    obtain ⟨missing, rfl | ⟨root, member, rfl⟩ | ⟨user, reached, member⟩ | ⟨m, body, names⟩⟩ :=
      defective
    · exact ⟨_, .objectMissing missing⟩
    · exact ⟨_, .rootMissing member missing⟩
    · exact ⟨_, .partMissing reached member missing⟩
    · obtain ⟨demand, member, named⟩ := Dependencies.names_iff.mp names
      exact ⟨_, .codeMissing body member named missing⟩
  | notInstantiable cls =>
    obtain ⟨interface, ⟨ctor, member⟩ | ⟨m, body, edge⟩⟩ := defective
    · exact ⟨_, .rootNotInstantiable member interface rfl⟩
    · exact ⟨_, .notInstantiable body edge interface rfl⟩
  | notAModule name =>
    obtain ⟨⟨kind, found, other⟩, member | ⟨m, body, edge⟩⟩ := defective
    · exact ⟨_, .rootNotModule member found other⟩
    · exact ⟨_, .notModule body edge found other⟩
  | missingMember m =>
    obtain ⟨owner, selector⟩ := m
    obtain ⟨present, lacks | ⟨lacks, calls⟩⟩ := defective
    · obtain ⟨receiver, method, rfl, follows, made, inherits, missing, notHost⟩ := lacks
      obtain ⟨caller, body, edge⟩ := follows
      exact ⟨_, .call body edge made inherits missing notHost⟩
    · have unanswered := unanswered_iff.mpr lacks
      rcases calls with member | ⟨ctor, member, rfl⟩ | ⟨caller, body, edge⟩ | ⟨accessed, rfl⟩
      · exact ⟨_, .rootMember member present unanswered⟩
      · exact ⟨_, .rootConstructor member present unanswered⟩
      · exact ⟨_, .exactCall body edge present unanswered⟩
      · obtain ⟨referrer, kind, loads, found, module⟩ := accessed.loads
        exact ⟨_, .moduleConstructor loads found module unanswered⟩

end Program

/-- The report lists exactly the defects of what it shows to be live. -/
theorem listed_analyze_iff {summaries : List UnitSummary}
    (ascending : ∀ u ∈ summaries, Ascending.By MemberSummary.selector u.members) {config : Config}
    (reporting : config.missing = .report) {defect : Defect} :
    Diagnostic.Listed (analyze summaries config).diagnostics defect ↔
      (Program.ofUnits summaries).Defective config
        ((Program.ofUnits summaries).Shown (analyze summaries config)) defect := by
  have same : (Program.ofUnits summaries).Shown (analyze summaries config) = _ :=
    Program.shown_analyze (Program.ordered_ofUnits ascending)
  rw [same]
  constructor
  · intro listed
    obtain ⟨_, referrer, refers⟩ := State.listed_run_iff.mp listed
    exact refers.defective
  · exact fun defective => State.listed_run_iff.mpr ⟨reporting, defective.refers⟩

/-- A class with a missing superclass. Its exported method calls a method that is not there, makes
an instance of an interface, loads a class as a module and has an empty group of reads. -/
def faulty : List UnitSummary :=
  [{ name := ⟨20⟩, kind := .plainClass, superclass := some ⟨40⟩, isExported := true,
     members := [{ selector := .method ⟨30⟩, isExported := true,
                   dependencies := { reads := [(⟨41⟩, [])], calls := [(⟨20⟩, [⟨31⟩])],
                                     instantiated := [⟨21⟩], modules := [⟨20⟩] } }] },
   { name := ⟨21⟩, kind := .interface }]

theorem defective_faulty :
    (∀ defect ∈ [Defect.missingUnit Name.object, .missingUnit ⟨40⟩, .missingUnit ⟨41⟩,
        .missingMember ⟨⟨20⟩, .method ⟨31⟩⟩, .notInstantiable ⟨21⟩, .notAModule ⟨20⟩],
      Diagnostic.Listed (analyze faulty {}).diagnostics defect) ∧
      (Program.ofUnits faulty).Defective {} ((Program.ofUnits faulty).Shown (analyze faulty {}))
        (.missingUnit ⟨41⟩) ∧
      (Program.ofUnits faulty).Defective {} ((Program.ofUnits faulty).Shown (analyze faulty {}))
        (.missingMember ⟨⟨20⟩, .method ⟨31⟩⟩) := by
  have ascending : ∀ u ∈ faulty, Ascending.By MemberSummary.selector u.members := by
    unfold Ascending.By
    decide
  have listed : ∀ defect ∈ [Defect.missingUnit Name.object, .missingUnit ⟨40⟩, .missingUnit ⟨41⟩,
        .missingMember ⟨⟨20⟩, .method ⟨31⟩⟩, .notInstantiable ⟨21⟩, .notAModule ⟨20⟩],
      Diagnostic.Listed (analyze faulty {}).diagnostics defect := by
    unfold Diagnostic.Listed
    decide
  refine ⟨listed, ?_, ?_⟩
  · exact (listed_analyze_iff ascending rfl).mp (listed _ (by decide))
  · exact (listed_analyze_iff ascending rfl).mp (listed _ (by decide))

end TreeShake
