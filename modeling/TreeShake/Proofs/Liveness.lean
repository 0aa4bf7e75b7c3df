import TreeShake.Proofs.Ancestry
import TreeShake.Reachability.Report

set_option autoImplicit false

/-!
What it means that a part of a program is live, said without the analysis. The rules derive facts
from known facts. A family of facts is closed if it holds whatever the rules derive from it, and the
live facts are the least closed family: those with a derivation from the seeds.

The rules know nothing of queues, logs and the order of discovery. A virtual call and an
instantiation are two premises of one rule, so neither comes first.
-/

namespace TreeShake

/-- What can be live when a program runs. Members are given in any form: by the slots where they
stand, or by references. -/
inductive Fact (μ : Type) where
  | use (name : Name) (use : Use)
  /-- A member with a body runs. -/
  | body (m : μ)
  /-- An abstract member is needed as a declaration. -/
  | contract (m : μ)
  | read (owner field : Name)
  | write (owner field : Name)
  | global (name : Name)
  deriving DecidableEq, Repr

def Fact.map {μ ν : Type} (change : μ → ν) : Fact μ → Fact ν
  | .use name kind => .use name kind
  | .body m => .body (change m)
  | .contract m => .contract (change m)
  | .read owner field => .read owner field
  | .write owner field => .write owner field
  | .global name => .global name

/-- The fact that a static field is accessed in this way. -/
def Access.fact {μ : Type} : Access → Name → Name → Fact μ
  | read => .read
  | write => .write

/-- The units whose static fields a record reads or writes. An empty group counts too. -/
def Dependencies.Accesses (d : Dependencies) (owner : Name) : Prop :=
  owner ∈ d.reads.map Prod.fst ∨ owner ∈ d.writes.map Prod.fst

/-- The unit offers members to the host under its own name. -/
def UnitSummary.Exposes (u : UnitSummary) : Prop :=
  ∃ m ∈ u.members, m.isExported = true ∧ m.selector ≠ .topLevelExports

theorem UnitKind.isInstantiable_of_isModule {kind : UnitKind} (module : kind.isModule = true) :
    kind.isInstantiable = true := by
  cases kind with
  | moduleClass | hostModule => rfl
  | plainClass | interface | boxedClass | hostClass | nativeClass => cases module

namespace Program

variable (p : Program)

/-- The fact that a member is live, if the program declares it. -/
def liveness? (m : Slot) : Option (Fact Slot) :=
  (p.abstract? m).map fun isAbstract => if isAbstract then .contract m else .body m

/-- What a call with a fixed target makes live. A method may be inherited, all else is looked for in
the owner alone. Without a target, the call concerns the host if the owner is the host's. -/
inductive ExactCall (owner : Name) : Selector → Fact Slot → Prop
  | inherited {method m fact} : p.target? owner method = some m → p.liveness? m = some fact →
      ExactCall owner (.method method) fact
  | declared {selector m fact} :
      (selector.space = .pub → p.implementation? owner selector.name = none) →
      p.slot? ⟨owner, selector⟩ = some m → p.liveness? m = some fact → ExactCall owner selector fact
  | hostMethod {method} : p.implementation? owner method = none →
      p.declares ⟨owner, .method method⟩ = false → p.isHostProvided owner = true →
      ExactCall owner (.method method) (.use owner .reached)
  | hostMember {selector} : selector.space ≠ .pub → p.declares ⟨owner, selector⟩ = false →
      p.kind? owner = some .nativeClass → ExactCall owner selector (.use owner .reached)

variable (config : Config)

/-- The rules of liveness: what follows in one step from the known facts. -/
inductive Derives (known : Fact Slot → Prop) : Fact Slot → Prop
  -- Before any code is read.
  | object : p.contains Name.object = true → Derives known (.use Name.object .reached)
  | boxed {name} : p.kind? name = some .boxedClass → Derives known (.use name .instantiated)
  | exported {name u} : p.find? name = some u → u.isExported = true →
      Derives known (.use name .reached)
  | exportedMember {name u i m fact} : p.find? name = some u → u.isExported = true →
      u.members[i]? = some m → m.isExported = true → p.liveness? ⟨name, i⟩ = some fact →
      Derives known fact
  | exposedModule {name u} : p.find? name = some u → u.isExported = true → u.Exposes →
      u.kind.isModule = true → Derives known (.use name .moduleAccessed)
  | exposedClass {name u} : p.find? name = some u → u.isExported = true → u.Exposes →
      u.kind.isModule = false → u.kind.isInstantiable = true →
      Derives known (.use name .instantiated)
  | unitRoot {name} : .unit name ∈ config.roots.toList → p.contains name = true →
      Derives known (.use name .reached)
  | memberRoot {m fact} : .member m ∈ config.roots.toList → p.ExactCall m.owner m.selector fact →
      Derives known fact
  | moduleRoot {name kind} : .module name ∈ config.roots.toList → p.kind? name = some kind →
      kind.isModule = true → Derives known (.use name .moduleAccessed)
  | instanceRoot {cls ctor kind} : .instantiate cls ctor ∈ config.roots.toList →
      p.kind? cls = some kind → kind.isInstantiable = true → Derives known (.use cls .instantiated)
  | constructorRoot {cls ctor fact} : .instantiate cls ctor ∈ config.roots.toList →
      p.ExactCall cls (.ctor ctor) fact → Derives known fact
  -- From the record of a live member.
  | access {m owner} : known (.body m) → (p.dependencies m).Accesses owner →
      p.contains owner = true → Derives known (.use owner .initialized)
  | read {m owner field} : known (.body m) → .readField owner field ∈ p.dependencies m →
      p.contains owner = true → Derives known (.read owner field)
  | write {m owner field} : known (.body m) → .writeField owner field ∈ p.dependencies m →
      p.contains owner = true → Derives known (.write owner field)
  | call {m receiver method cls target fact} : known (.body m) →
      .call receiver method ∈ p.dependencies m → known (.use cls .instantiated) →
      p.Inherits cls receiver → p.target? cls method = some target →
      p.liveness? target = some fact → Derives known fact
  | contract {m receiver method declaration fact} : config.keepContracts = true → known (.body m) →
      .call receiver method ∈ p.dependencies m → p.contract? receiver method = some declaration →
      p.liveness? declaration = some fact → Derives known fact
  | exactCall {m owner selector fact} : known (.body m) →
      .callExact owner selector ∈ p.dependencies m → p.ExactCall owner selector fact →
      Derives known fact
  | instantiate {m cls kind} : known (.body m) → .instantiate cls ∈ p.dependencies m →
      p.kind? cls = some kind → kind.isInstantiable = true → Derives known (.use cls .instantiated)
  | loadModule {m name kind} : known (.body m) → .loadModule name ∈ p.dependencies m →
      p.kind? name = some kind → kind.isModule = true → Derives known (.use name .moduleAccessed)
  | testInstance {m name} : known (.body m) → .testInstance name ∈ p.dependencies m →
      p.contains name = true → Derives known (.use name .typeTested)
  | classData {m name} : known (.body m) → .classData name ∈ p.dependencies m →
      p.contains name = true → Derives known (.use name .dataAccessed)
  | hostGlobal {m name} : known (.body m) → .hostGlobal name ∈ p.dependencies m →
      Derives known (.global name)
  -- From the way a unit is used.
  | reached {name use} : known (.use name use) → Derives known (.use name .reached)
  | parent {name parent} : known (.use name .reached) → p.HasParent name parent →
      Derives known (.use parent .reached)
  | initializer {name m fact} : known (.use name .initialized) →
      p.slot? ⟨name, .staticInitializer⟩ = some m → p.liveness? m = some fact → Derives known fact
  | instanceCode {cls} : known (.use cls .instantiated) → Derives known (.use cls .initialized)
  | instanceData {cls ancestor} : known (.use cls .instantiated) → p.Inherits cls ancestor →
      Derives known (.use ancestor .dataAccessed)
  | moduleInstance {name} : known (.use name .moduleAccessed) →
      Derives known (.use name .instantiated)
  | moduleConstructor {name fact} : known (.use name .moduleAccessed) →
      p.ExactCall name (.ctor Name.defaultConstructor) fact → Derives known fact
  | bodyOwner {m} : known (.body m) → Derives known (.use m.owner .initialized)
  | contractOwner {m} : known (.contract m) → Derives known (.use m.owner .reached)

/-- The family holds whatever the rules derive from it. -/
def Closed (known : Fact Slot → Prop) : Prop :=
  ∀ fact, p.Derives config known fact → known fact

/-- The facts that have a derivation. -/
inductive Live : Fact Slot → Prop
  | derived {fact} : p.Derives config Live fact → Live fact

/-- The fact is live of the members that the references find. -/
def LiveBy : Fact MemberRef → Prop
  | .use name kind => p.Live config (.use name kind)
  | .body m => ∃ slot, p.slot? m = some slot ∧ p.Live config (.body slot)
  | .contract m => ∃ slot, p.slot? m = some slot ∧ p.Live config (.contract slot)
  | .read owner field => p.Live config (.read owner field)
  | .write owner field => p.Live config (.write owner field)
  | .global name => p.Live config (.global name)

variable {p config}

/-- The live facts are below every closed family. -/
theorem Live.least {known : Fact Slot → Prop} (closed : p.Closed config known) {fact : Fact Slot}
    (live : p.Live config fact) : known fact := by
  apply @Live.rec p config (fun fact _ => known fact) (fun fact _ => p.Derives config known fact)
    (t := live)
  case derived => exact fun _ derives => closed _ derives
  case object => exact .object
  case boxed => exact .boxed
  case exported => exact .exported
  case exportedMember => exact .exportedMember
  case exposedModule => exact .exposedModule
  case exposedClass => exact .exposedClass
  case unitRoot => exact .unitRoot
  case memberRoot => exact .memberRoot
  case moduleRoot => exact .moduleRoot
  case instanceRoot => exact .instanceRoot
  case constructorRoot => exact .constructorRoot
  case access => exact fun _ accesses present body => .access body accesses present
  case read => exact fun _ edge present body => .read body edge present
  case write => exact fun _ edge present body => .write body edge present
  case call => exact fun _ edge _ above found live body cls => .call body edge cls above found live
  case contract => exact fun kept _ edge found live body => .contract kept body edge found live
  case exactCall => exact fun _ edge target body => .exactCall body edge target
  case instantiate => exact fun _ edge kind allowed body => .instantiate body edge kind allowed
  case loadModule => exact fun _ edge kind allowed body => .loadModule body edge kind allowed
  case testInstance => exact fun _ edge present body => .testInstance body edge present
  case classData => exact fun _ edge present body => .classData body edge present
  case hostGlobal => exact fun _ edge body => .hostGlobal body edge
  case reached => exact fun _ used => .reached used
  case parent => exact fun _ above used => .parent used above
  case initializer => exact fun _ found live used => .initializer used found live
  case instanceCode => exact fun _ used => .instanceCode used
  case instanceData => exact fun _ above used => .instanceData used above
  case moduleInstance => exact fun _ used => .moduleInstance used
  case moduleConstructor => exact fun _ target used => .moduleConstructor used target
  case bodyOwner => exact fun _ body => .bodyOwner body
  case contractOwner => exact fun _ body => .contractOwner body

theorem liveness?_eq_some_iff {m : Slot} {fact : Fact Slot} :
    p.liveness? m = some fact ↔
      p.abstract? m = some false ∧ fact = .body m ∨
        p.abstract? m = some true ∧ fact = .contract m := by
  unfold liveness?
  cases declared : p.abstract? m with
  | none => simp
  | some isAbstract => cases isAbstract <;> simp [eq_comm]

theorem liveness?_of_body {m : Slot} (body : p.abstract? m = some false) :
    p.liveness? m = some (.body m) := by
  simp [liveness?, body]

theorem liveness?_of_contract {m : Slot} (declaration : p.abstract? m = some true) :
    p.liveness? m = some (.contract m) := by
  simp [liveness?, declaration]

theorem isSome_member?_iff {m : Slot} :
    (p.member? m).isSome = true ↔ ∃ fact, p.liveness? m = some fact := by
  unfold liveness? abstract?
  cases p.member? m <;> simp

theorem contains_of_abstract? {m : Slot} {isAbstract : Bool}
    (declared : p.abstract? m = some isAbstract) : p.contains m.owner = true := by
  unfold abstract? member? at declared
  unfold contains
  cases found : p.find? m.owner with
  | none => simp [found] at declared
  | some u => rfl

theorem contains_of_kind? {name : Name} {kind : UnitKind} (known : p.kind? name = some kind) :
    p.contains name = true := by
  unfold kind? at known
  unfold contains
  cases found : p.find? name with
  | none => simp [found] at known
  | some u => rfl

theorem any_isNative_iff {kind? : Option UnitKind} :
    kind?.any UnitKind.isNative = true ↔ kind? = some .nativeClass := by
  cases kind? <;> simp [UnitKind.isNative]

/-- What implements a method has a body. -/
theorem hasBody_of_implementation? {cls method owner : Name}
    (found : p.implementation? cls method = some owner) : p.hasBody owner method = true := by
  rcases Option.or_eq_some_iff.mp found with inherited | ⟨_, default⟩
  · have body := List.find?_some inherited
    exact body
  · have conditions := (List.mem_filter.mp (List.mem_of_find?_eq_some default)).2
    rw [Bool.and_eq_true] at conditions
    exact conditions.2

theorem target?_eq_some_iff {cls method : Name} {m : Slot} :
    p.target? cls method = some m ↔
      ∃ owner, p.implementation? cls method = some owner ∧ p.body? owner method = some m :=
  Option.bind_eq_some_iff

theorem target?_eq_none_iff {cls method : Name} :
    p.target? cls method = none ↔ p.implementation? cls method = none := by
  constructor
  · intro none
    cases found : p.implementation? cls method with
    | none => rfl
    | some owner =>
      obtain ⟨m, body⟩ := Option.isSome_iff_exists.mp (hasBody_of_implementation? found)
      rw [target?_eq_some_iff.mpr ⟨owner, found, body⟩] at none
      cases none
  · intro none
    rw [target?, none]
    rfl

theorem body?_eq_some_iff {owner method : Name} {m : Slot} :
    p.body? owner method = some m ↔
      p.slot? ⟨owner, .method method⟩ = some m ∧ p.abstract? m = some false := by
  rw [body?, Option.filter_eq_some_iff, decide_eq_true_eq]

theorem abstract?_of_target? {cls method : Name} {m : Slot}
    (found : p.target? cls method = some m) : p.abstract? m = some false := by
  obtain ⟨owner, _, body⟩ := target?_eq_some_iff.mp found
  exact (body?_eq_some_iff.mp body).2

theorem declares_eq_false_iff {m : MemberRef} : p.declares m = false ↔ p.slot? m = none :=
  Option.isSome_eq_false_iff.trans Option.isNone_iff_eq_none

theorem exactTarget?_of_pub {owner name : Name} :
    p.exactTarget? owner (.method name) =
      (p.target? owner name).or (p.slot? ⟨owner, .method name⟩) :=
  if_pos rfl

theorem exactTarget?_of_not_pub {owner : Name} {selector : Selector} (own : selector.space ≠ .pub) :
    p.exactTarget? owner selector = p.slot? ⟨owner, selector⟩ :=
  if_neg own

/-- The target of an exact call, as the program looks it up. -/
theorem exactCall_iff {owner : Name} {selector : Selector} {fact : Fact Slot} :
    p.ExactCall owner selector fact ↔
      (∃ m, p.exactTarget? owner selector = some m ∧ p.liveness? m = some fact) ∨
      p.exactTarget? owner selector = none ∧ p.hostAnswers owner selector = true ∧
        fact = .use owner .reached := by
  constructor
  · rintro (⟨found, live⟩ | ⟨missing, found, live⟩ | ⟨missing, undeclared, host⟩ |
      ⟨own, undeclared, host⟩)
    · exact .inl ⟨_, by rw [exactTarget?_of_pub, found, Option.some_or], live⟩
    · refine .inl ⟨_, ?_, live⟩
      unfold exactTarget?
      split
      · next pub => rw [target?_eq_none_iff.mpr (missing pub), Option.none_or, found]
      · exact found
    · refine .inr ⟨?_, by simpa [hostAnswers, Selector.method] using host, rfl⟩
      rw [exactTarget?_of_pub, target?_eq_none_iff.mpr missing, Option.none_or,
        declares_eq_false_iff.mp undeclared]
    · refine .inr ⟨?_, by simpa [hostAnswers, own] using any_isNative_iff.mpr host, rfl⟩
      rw [exactTarget?_of_not_pub own, declares_eq_false_iff.mp undeclared]
  · by_cases pub : selector.space = .pub
    · obtain ⟨space, name⟩ := selector
      obtain rfl : space = .pub := pub
      rw [← Selector.method, exactTarget?_of_pub]
      rintro (⟨m, target, live⟩ | ⟨none, host, rfl⟩)
      · rcases Option.or_eq_some_iff.mp target with found | ⟨missing, found⟩
        · exact .inherited found live
        · exact .declared (fun _ => target?_eq_none_iff.mp missing) found live
      · obtain ⟨missing, undeclared⟩ := Option.or_eq_none_iff.mp none
        exact .hostMethod (target?_eq_none_iff.mp missing) (declares_eq_false_iff.mpr undeclared)
          (by simpa [hostAnswers, Selector.method] using host)
    · rw [exactTarget?_of_not_pub pub]
      rintro (⟨m, found, live⟩ | ⟨undeclared, host, rfl⟩)
      · exact .declared (fun own => absurd own pub) found live
      · exact .hostMember pub (declares_eq_false_iff.mpr undeclared)
          (any_isNative_iff.mp (by simpa [hostAnswers, pub] using host))

theorem contains_of_isHostProvided {cls : Name} (host : p.isHostProvided cls = true) :
    p.contains cls = true := by
  obtain ⟨u, above, _⟩ := List.any_eq_true.mp host
  exact p.contains_of_mem_superclasses above

theorem contains_of_implementation? {cls method owner : Name}
    (found : p.implementation? cls method = some owner) : p.contains cls = true := by
  rcases Option.or_eq_some_iff.mp found with inherited | ⟨_, default⟩
  · have member := List.mem_of_find?_eq_some inherited
    obtain ⟨u, above, _⟩ := List.mem_map.mp member
    exact p.contains_of_mem_superclasses above
  · have candidate := List.mem_filter.mp (List.mem_of_find?_eq_some default)
    have interface : p.kind? owner = some .interface := by
      have conditions := candidate.2
      simp only [Bool.and_eq_true, decide_eq_true_eq] at conditions
      exact conditions.1
    exact (p.inherits_of_mem_ancestors candidate.1).presentBelow (contains_of_kind? interface)

theorem contains_of_slot? {m : MemberRef} {slot : Slot} (found : p.slot? m = some slot) :
    p.contains m.owner = true := by
  obtain ⟨u, owner, _⟩ := Option.bind_eq_some_iff.mp found
  exact p.contains_of_find? owner

theorem contract?_eq_some {receiver method : Name} {m : Slot}
    (found : p.contract? receiver method = some m) :
    (∃ owner ∈ p.ancestors receiver, p.slot? ⟨owner, .method method⟩ = some m) ∧
      p.abstract? m = some true := by
  rw [contract?, contractAmong?, Option.filter_eq_some_iff, decide_eq_true_eq] at found
  exact ⟨List.exists_of_findSome?_eq_some found.1, found.2⟩

theorem contains_of_contract? {receiver method : Name} {m : Slot}
    (found : p.contract? receiver method = some m) : p.contains receiver = true := by
  obtain ⟨⟨owner, above, declared⟩, _⟩ := contract?_eq_some found
  exact (p.inherits_of_mem_ancestors above).presentBelow (contains_of_slot? declared)

theorem ExactCall.present {owner : Name} {selector : Selector} {fact : Fact Slot}
    (target : p.ExactCall owner selector fact) : p.contains owner = true := by
  cases target with
  | inherited found _ =>
    obtain ⟨_, implemented, _⟩ := target?_eq_some_iff.mp found
    exact contains_of_implementation? implemented
  | declared _ found _ => exact contains_of_slot? found
  | hostMethod _ _ host => exact contains_of_isHostProvided host
  | hostMember _ _ native => exact contains_of_kind? native

variable (p) in
/-- What a fact speaks of is declared by the program. -/
def Declared : Fact Slot → Prop
  | .use name _ => p.contains name = true
  | .body m => p.abstract? m = some false
  | .contract m => p.abstract? m = some true
  | .read owner _ | .write owner _ => p.contains owner = true
  | .global _ => True

theorem declared_of_liveness? {m : Slot} {fact : Fact Slot} (live : p.liveness? m = some fact) :
    p.Declared fact := by
  rcases liveness?_eq_some_iff.mp live with ⟨declared, rfl⟩ | ⟨declared, rfl⟩
  · exact declared
  · exact declared

theorem ExactCall.declaredFact {owner : Name} {selector : Selector} {fact : Fact Slot}
    (target : p.ExactCall owner selector fact) : p.Declared fact := by
  cases target with
  | inherited _ live => exact declared_of_liveness? live
  | declared _ _ live => exact declared_of_liveness? live
  | hostMethod _ _ host => exact contains_of_isHostProvided host
  | hostMember _ _ native => exact contains_of_kind? native

theorem closed_declared : p.Closed config p.Declared := by
  intro fact derives
  cases derives with
  | object present => exact present
  | boxed kind => exact contains_of_kind? kind
  | exported found _ => exact p.contains_of_find? found
  | exportedMember _ _ _ _ live => exact declared_of_liveness? live
  | exposedModule found _ _ _ => exact p.contains_of_find? found
  | exposedClass found _ _ _ _ => exact p.contains_of_find? found
  | unitRoot _ present => exact present
  | memberRoot _ target => exact target.declaredFact
  | moduleRoot _ kind _ => exact contains_of_kind? kind
  | instanceRoot _ kind _ => exact contains_of_kind? kind
  | constructorRoot _ target => exact target.declaredFact
  | access _ _ present => exact present
  | read _ _ present => exact present
  | write _ _ present => exact present
  | call _ _ _ _ _ live => exact declared_of_liveness? live
  | contract _ _ _ _ live => exact declared_of_liveness? live
  | exactCall _ _ target => exact target.declaredFact
  | instantiate _ _ kind _ => exact contains_of_kind? kind
  | loadModule _ _ kind _ => exact contains_of_kind? kind
  | testInstance _ _ present => exact present
  | classData _ _ present => exact present
  | hostGlobal _ _ => trivial
  | reached used => exact used
  | parent _ above => exact above.2
  | initializer _ _ live => exact declared_of_liveness? live
  | instanceCode used => exact used
  | instanceData used above => exact above.present used
  | moduleInstance used => exact used
  | moduleConstructor _ target => exact target.declaredFact
  | bodyOwner body => exact contains_of_abstract? body
  | contractOwner declared => exact contains_of_abstract? declared

theorem Live.declaredFact {fact : Fact Slot} (live : p.Live config fact) : p.Declared fact :=
  live.least closed_declared

end Program

end TreeShake
