import TreeShake.Proofs.Saturation

set_option autoImplicit false

/-!
The defects of a program that its live part shows, and who refers to them: a relation between
defects and referrers that depends on the live facts alone. A completed run reports all of them. For
a missing member only the first referrer is sure to be named, because later ones find the call known
already.
-/

namespace TreeShake

def Root.owner : Root → Name
  | .unit name | .module name => name
  | .member m => m.owner
  | .instantiate cls _ => cls

/-- The unit that an edge names. -/
def Edge.unit? : Edge → Option Name
  | .readField owner _ | .writeField owner _ | .callExact owner _ => some owner
  | .call receiver _ => some receiver
  | .instantiate cls | .loadModule cls | .testInstance cls | .classData cls | .mention cls => some cls
  | .hostGlobal _ => none

def Demand.unit? : Demand → Option Name
  | .unit name | .code name => some name
  | .edge followed => followed.unit?

namespace Program

variable (p : Program) (config : Config)

/-- Neither the program nor the host answers an exact call. -/
def Unanswered (owner : Name) (selector : Selector) : Prop :=
  p.exactTarget? owner selector = none ∧ p.hostAnswers owner selector = false

/-- Who makes the host or the program load a module. -/
inductive Loads (known : Fact Slot → Prop) : Referrer → Name → Prop
  | exposed {name u} : p.find? name = some u → u.isExported = true → u.Exposes →
      Loads known (.unit name) name
  | root {name} : .module name ∈ config.roots.toList → Loads known .roots name
  | code {m name} : known (.body m) → .loadModule name ∈ p.dependencies m →
      Loads known (.member (p.ref m)) name

inductive Refers (known : Fact Slot → Prop) : Defect → Referrer → Prop
  -- Units that are named and missing.
  | objectMissing : p.contains Name.object = false → Refers known (.missingUnit Name.object) .roots
  | rootMissing {root : Root} : root ∈ config.roots.toList → p.contains root.owner = false →
      Refers known (.missingUnit root.owner) .roots
  | partMissing {name other} : known (.use name .reached) →
      other ∈ p.parents name ++ p.fieldClasses name → p.contains other = false →
      Refers known (.missingUnit other) (.unit name)
  | codeMissing {m other} {demand : Demand} : known (.body m) →
      demand ∈ (p.dependencies m).demands → demand.unit? = some other → p.contains other = false →
      Refers known (.missingUnit other) (.member (p.ref m))
  -- Units of the wrong kind.
  | rootNotModule {name kind} : .module name ∈ config.roots.toList → p.kind? name = some kind →
      kind.isModule = false → Refers known (.notAModule name) .roots
  | notModule {m name kind} : known (.body m) → .loadModule name ∈ p.dependencies m →
      p.kind? name = some kind → kind.isModule = false →
      Refers known (.notAModule name) (.member (p.ref m))
  | rootNotInstantiable {cls ctor kind} : .instantiate cls ctor ∈ config.roots.toList →
      p.kind? cls = some kind → kind.isInstantiable = false →
      Refers known (.notInstantiable cls) .roots
  | notInstantiable {m cls kind} : known (.body m) → .instantiate cls ∈ p.dependencies m →
      p.kind? cls = some kind → kind.isInstantiable = false →
      Refers known (.notInstantiable cls) (.member (p.ref m))
  -- Members that are called and not there.
  | rootMember {m} : .member m ∈ config.roots.toList → p.contains m.owner = true →
      p.Unanswered m.owner m.selector → Refers known (.missingMember m) .roots
  | rootConstructor {cls ctor} : .instantiate cls ctor ∈ config.roots.toList →
      p.contains cls = true → p.Unanswered cls (.ctor ctor) →
      Refers known (.missingMember ⟨cls, .ctor ctor⟩) .roots
  | exactCall {m owner selector} : known (.body m) → .callExact owner selector ∈ p.dependencies m →
      p.contains owner = true → p.Unanswered owner selector →
      Refers known (.missingMember ⟨owner, selector⟩) (.member (p.ref m))
  | moduleConstructor {referrer name kind} : p.Loads config known referrer name →
      p.kind? name = some kind → kind.isModule = true →
      p.Unanswered name (.ctor Name.defaultConstructor) →
      Refers known (.missingMember ⟨name, .ctor Name.defaultConstructor⟩) referrer
  | call {m receiver method cls} : known (.body m) → .call receiver method ∈ p.dependencies m →
      known (.use cls .instantiated) → p.Inherits cls receiver →
      p.implementation? cls method = none → p.isHostProvided cls = false →
      Refers known (.missingMember ⟨cls, .method method⟩) (.member (p.ref m))

variable {p config} in
/-- A module that is loaded is accessed. -/
theorem Loads.accessed {known : Fact Slot → Prop} (closed : p.Closed config known)
    {referrer : Referrer} {name : Name} {kind : UnitKind} (loads : p.Loads config known referrer name)
    (found : p.kind? name = some kind) (module : kind.isModule = true) :
    known (.use name .moduleAccessed) := by
  cases loads with
  | @exposed _ u unit exported exposes =>
    have same : u.kind = kind := by simpa [kind?, unit] using found
    exact closed _ (.exposedModule unit exported exposes (same ▸ module))
  | root member => exact closed _ (.moduleRoot member found module)
  | code body member => exact closed _ (.loadModule body member found module)

end Program

namespace State

variable {p : Program} {config : Config} {o : Options} {s : State}

theorem Ensured.mentions {name : Name} {referrer : Referrer} {effect : State → Prop}
    (ensured : s.Ensured p o name referrer effect) (missing : p.contains name = false) :
    s.Mentions o (.missingUnit name) referrer := by
  unfold Ensured at ensured
  rwa [if_neg (by simp [missing])] at ensured

theorem Met.mentions {demand : Demand} {referrer : Referrer} {name : Name}
    (met : s.Met p o demand referrer) (named : demand.unit? = some name)
    (missing : p.contains name = false) : s.Mentions o (.missingUnit name) referrer := by
  cases demand with
  | unit other | code other =>
    injection named with same
    unfold Met at met
    exact (same ▸ met).mentions missing
  | edge edge =>
    cases edge with
    | hostGlobal => cases named
    | readField owner | writeField owner | call receiver | callExact owner | instantiate cls
    | loadModule cls | testInstance cls | classData cls | mention cls =>
      injection named with same
      unfold Met Followed at met
      exact (same ▸ met).mentions missing

theorem Rooted.mentions {root : Root} (rooted : s.Rooted p o root)
    (missing : p.contains root.owner = false) : s.Mentions o (.missingUnit root.owner) .roots := by
  unfold Rooted at rooted
  cases root with
  | unit name | member m | module name | instantiate cls ctor => exact rooted.mentions missing

theorem Answered.lists {owner : Name} {selector : Selector} (answered : s.Answered p o owner selector)
    (unanswered : p.Unanswered owner selector) : s.Lists o (.missingMember ⟨owner, selector⟩) := by
  unfold Answered at answered
  rw [unanswered.1] at answered
  simpa [unanswered.2] using answered

theorem Loaded.mentions {name : Name} {referrer : Referrer} {kind : UnitKind}
    (loaded : s.Loaded p o name referrer) (known : p.kind? name = some kind)
    (other : kind.isModule = false) : s.Mentions o (.notAModule name) referrer := by
  have effect := loaded kind known
  rwa [if_neg (by simp [other])] at effect

theorem Instantiated.mentions {cls : Name} {referrer : Referrer} {kind : UnitKind}
    (instantiated : s.Instantiated p o cls referrer) (known : p.kind? cls = some kind)
    (other : kind.isInstantiable = false) : s.Mentions o (.notInstantiable cls) referrer := by
  have effect := instantiated kind known
  rwa [if_neg (by simp [other])] at effect

namespace Complete

variable (complete : s.Complete p config)
include complete

/-- What is wrong is listed. A defect of a unit is listed with all its referrers. -/
theorem reports (reporting : config.missing = .report) {defect : Defect} {referrer : Referrer}
    (refers : p.Refers config (s.Knows p) defect referrer) :
    Diagnostic.Listed s.diagnostics.entries defect ∧
      ((∀ m, defect ≠ .missingMember m) →
        Diagnostic.Mentioned s.diagnostics.entries defect referrer) := by
  have ofMention : s.Mentions config.toOptions defect referrer →
      Diagnostic.Listed s.diagnostics.entries defect ∧
        ((∀ m, defect ≠ .missingMember m) →
          Diagnostic.Mentioned s.diagnostics.entries defect referrer) :=
    fun mentions => ⟨Diagnostic.listed_of_mentioned (mentions reporting), fun _ => mentions reporting⟩
  cases refers with
  | objectMissing missing =>
    have planted := complete.planted .object (by simp [Program.seeds])
    unfold Planted at planted
    exact ofMention (planted.mentions missing)
  | rootMissing member missing => exact ofMention ((complete.rooted member).mentions missing)
  | partMissing reached member missing =>
    exact ofMention (((complete.settled.above _ reached).2 _ member).mentions missing)
  | codeMissing body member named missing =>
    exact ofMention ((complete.met body member).mentions named missing)
  | rootNotModule member known other =>
    have rooted := complete.rooted member
    unfold Rooted at rooted
    exact ofMention ((rooted.effect (Program.contains_of_kind? known)).mentions known other)
  | notModule body member known other =>
    have followed := complete.followed body member
    unfold Followed at followed
    exact ofMention ((followed.effect (Program.contains_of_kind? known)).mentions known other)
  | rootNotInstantiable member known other =>
    have rooted := complete.rooted member
    unfold Rooted at rooted
    exact ofMention ((rooted.effect (Program.contains_of_kind? known)).1.mentions known other)
  | notInstantiable body member known other =>
    have followed := complete.followed body member
    unfold Followed at followed
    exact ofMention ((followed.effect (Program.contains_of_kind? known)).mentions known other)
  | rootMember member present unanswered =>
    have rooted := complete.rooted member
    unfold Rooted at rooted
    exact ⟨(rooted.effect present).lists unanswered reporting, fun other => absurd rfl (other _)⟩
  | rootConstructor member present unanswered =>
    have rooted := complete.rooted member
    unfold Rooted at rooted
    exact ⟨(rooted.effect present).2.lists unanswered reporting, fun other => absurd rfl (other _)⟩
  | exactCall body member present unanswered =>
    have followed := complete.followed body member
    unfold Followed at followed
    exact ⟨(followed.effect present).lists unanswered reporting, fun other => absurd rfl (other _)⟩
  | moduleConstructor loads known module unanswered =>
    have accessed := loads.accessed complete.closed known module
    have settles := complete.settles (show s.Owes p (.use _ .moduleAccessed) from accessed)
    exact ⟨settles.2.2.lists unanswered reporting, fun other => absurd rfl (other _)⟩
  | call body member made inherits missing notHost =>
    have resolved := complete.resolved body member made inherits
    unfold Resolved at resolved
    rw [Program.target?_eq_none_iff.mpr missing] at resolved
    exact ⟨resolved notHost reporting, fun other => absurd rfl (other _)⟩

end Complete

end State

end TreeShake
