import TreeShake.Dependencies.Demand
import TreeShake.Program.Dispatch
import TreeShake.Reachability.State

set_option autoImplicit false

/-!
How liveness spreads. Each operation adds to a state what follows from one fact, and does nothing if
the fact is known already.

Only expansion looks at the dependencies of a member. All other operations depend on the
declarations of the program alone.
-/

namespace TreeShake.State

variable (p : Program) (o : Options)

/-- Goes on if the program has the unit, and reports it missing otherwise. -/
def require (name : Name) (referrer : Referrer) (next : State → State) (s : State) : State :=
  if p.contains name then next s else s.report o (.missingUnit name) referrer

def requireAll (names : List Name) (referrer : Referrer) (s : State) : State :=
  names.foldl (fun s name => s.require p o name referrer id) s

/-- Reaches the pending units and all units above them, the parent declared last first. -/
def reachFrom : Nat → List Name → State → State
  | 0, _, s => s
  | rounds + 1, pending, s =>
    match pending.dropWhile fun name => s.has name .reached with
    | [] => s
    | name :: rest =>
      let above := (p.parents name).filter p.contains
      reachFrom rounds (above.reverse ++ rest)
        ((s.mark name .reached).requireAll p o (p.parents name ++ p.fieldClasses name) (.unit name))

/-- A reached unit keeps its place in the hierarchy. Each round reaches one more unit. -/
def reach (name : Name) (s : State) : State :=
  s.reachFrom p o p.size [name]

/-- Marks a member as live. One with a body waits to be expanded. -/
def enqueue (m : Slot) (s : State) : State :=
  if s.progress.get m = .unseen then
    match p.abstract? m with
    | none => s
    | some true => { s with progress := s.progress.set m .reached }
    | some false =>
      { s with progress := s.progress.set m .pending, queue := s.queue ++ [m] }
  else s

/-- Code of the unit runs, so its static initializer does. -/
def activate (name : Name) (s : State) : State :=
  if s.has name .initialized then s
  else
    let s := (s.mark name .initialized).reach p o name
    match p.slot? ⟨name, .staticInitializer⟩ with
    | some m => s.enqueue p m
    | none => s

/-- Schedules a member. One with a body runs, an abstract one is only declared. -/
def schedule (m : Slot) (s : State) : State :=
  if s.progress.get m = .unseen then
    match p.abstract? m with
    | none => s
    | some true => (s.enqueue p m).reach p o m.owner
    | some false => (s.enqueue p m).activate p o m.owner
  else s

/-- Whether one of the candidates is another unit below the owner. -/
def overridden (owner : Name) : List Name → State → Bool × State
  | [], s => (false, s)
  | other :: rest, s =>
    if other = owner then overridden owner rest s
    else
      let asked := s.lineage p other
      if asked.1.contains owner then (true, asked.2) else overridden owner rest asked.2

/-- The first of some units that no candidate overrides. -/
def mostSpecific (candidates : List Name) : List Name → State → Option Name × State
  | [], s => (none, s)
  | owner :: rest, s =>
    let tested := s.overridden p owner candidates
    if tested.1 then mostSpecific candidates rest tested.2 else (some owner, tested.2)

/-- The body that runs when the method is called on an instance of the class. Ancestors are asked for
only if the superclasses have none. -/
def lookup (cls method : Name) (s : State) : Option Slot × State :=
  match p.inherited? cls method with
  | some owner => (p.body? owner method, s)
  | none =>
    let asked := s.lineage p cls
    let candidates := p.defaultsAmong asked.1 method
    let found := asked.2.mostSpecific p candidates candidates
    (found.1.bind fun owner => p.body? owner method, found.2)

/-- The member that an exact call runs. -/
def lookupExact (owner : Name) (selector : Selector) (s : State) : Option Slot × State :=
  if selector.space = .pub then
    let found := s.lookup p owner selector.name
    (found.1.or (p.slot? ⟨owner, selector⟩), found.2)
  else (p.slot? ⟨owner, selector⟩, s)

/-- A call of the method on an instance of the class runs what implements it there. -/
def resolve (cls : Name) (site : CallSite) (s : State) : State :=
  let found := s.lookup p cls site.method
  match found.1 with
  | some m => found.2.schedule p o m
  | none =>
    if p.isHostProvided cls then found.2
    else found.2.report o (.missingMember ⟨cls, .method site.method⟩) site.referrer

/-- The calls on an ancestor may reach the new instances. -/
def instantiateBelow (cls ancestor : Name) (s : State) : State :=
  let s := (s.mark ancestor .dataAccessed).addSubclass ancestor cls
  (s.calls ancestor).foldl (fun s site => s.resolve p o cls site) s

def instantiate (cls : Name) (referrer : Referrer) (s : State) : State :=
  match p.kind? cls with
  | none => s
  | some kind =>
    if !kind.isInstantiable then s.report o (.notInstantiable cls) referrer
    else if s.has cls .instantiated then s
    else
      let asked := ((s.mark cls .instantiated).activate p o cls).lineage p cls
      asked.1.foldl (fun s ancestor => s.instantiateBelow p o cls ancestor) asked.2

def keepContract (receiver method : Name) (s : State) : State :=
  if o.keepContracts then
    let asked := s.lineage p receiver
    match p.contractAmong? asked.1 method with
    | some m => asked.2.schedule p o m
    | none => asked.2
  else s

/-- A virtual call may run a body of each instantiated class at or below the receiver. -/
def call (receiver method : Name) (referrer : Referrer) (s : State) : State :=
  if s.called receiver method then s
  else
    let site : CallSite := ⟨method, referrer⟩
    let s := (s.logCall receiver site).keepContract p o receiver method
    (s.subclasses.get receiver).foldl (fun s cls => s.resolve p o cls site) s

def callExact (owner : Name) (selector : Selector) (referrer : Referrer) (s : State) : State :=
  let found := s.lookupExact p owner selector
  match found.1 with
  | some m => found.2.schedule p o m
  | none =>
    if p.hostAnswers owner selector then found.2.reach p o owner
    else found.2.report o (.missingMember ⟨owner, selector⟩) referrer

def loadModule (name : Name) (referrer : Referrer) (s : State) : State :=
  match p.kind? name with
  | none => s
  | some kind =>
    if !kind.isModule then s.report o (.notAModule name) referrer
    else if s.has name .moduleAccessed then s
    else
      ((s.mark name .moduleAccessed).instantiate p o name referrer).callExact p o name
        (.ctor Name.defaultConstructor) referrer

/-- What follows from an edge of live code. -/
def follow (edge : Edge) (referrer : Referrer) (s : State) : State :=
  match edge with
  | .readField owner field =>
    s.require p o owner referrer fun s => (s.activate p o owner).accessField .read owner field
  | .writeField owner field =>
    s.require p o owner referrer fun s => (s.activate p o owner).accessField .write owner field
  | .call receiver method =>
    s.require p o receiver referrer fun s => s.call p o receiver method referrer
  | .callExact owner target =>
    s.require p o owner referrer fun s => s.callExact p o owner target referrer
  | .instantiate cls => s.require p o cls referrer fun s => s.instantiate p o cls referrer
  | .loadModule cls => s.require p o cls referrer fun s => s.loadModule p o cls referrer
  | .testInstance cls =>
    s.require p o cls referrer fun s => (s.mark cls .typeTested).reach p o cls
  | .classData cls =>
    s.require p o cls referrer fun s => (s.mark cls .dataAccessed).reach p o cls
  | .mention cls => s.require p o cls referrer id
  | .hostGlobal name => s.useGlobal name

def meet (demand : Demand) (referrer : Referrer) (s : State) : State :=
  match demand with
  | .unit name => s.require p o name referrer id
  | .code name => s.require p o name referrer fun s => s.activate p o name
  | .edge edge => s.follow p o edge referrer

/-- Meets all demands of a live record. -/
def expand (d : Dependencies) (referrer : Referrer) (s : State) : State :=
  d.demands.foldl (fun s demand => s.meet p o demand referrer) s

end TreeShake.State
