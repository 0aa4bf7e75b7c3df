import TreeShake.Reachability.Operations

set_option autoImplicit false

/-!
The analysis as a sequence of steps: the seeds one after the other, then the members of the queue in
the order in which they were scheduled.
-/

namespace TreeShake

/-- What is live before any code is read. -/
inductive Seed where
  | object
  /-- Primitive values exist in every program. -/
  | boxed (cls : Name)
  | exported (name : Name)
  | root (root : Root)
  deriving DecidableEq, Repr

namespace Program

variable (p : Program)

def seeds (roots : RootSet) : List Seed :=
  .object :: (p.units.filter fun u => u.kind = .boxedClass).map (fun u => .boxed u.name) ++
    (p.units.filter UnitSummary.isExported).map (fun u => .exported u.name) ++
    roots.toList.map .root

/-- The members that a unit exposes to the host. -/
def exports (name : Name) : List Slot :=
  let members := ((p.find? name).map UnitSummary.members).getD []
  (members.zipIdx.filter fun entry => entry.1.isExported).map fun entry => ⟨name, entry.2⟩

/-- The unit exposes members under its own name. -/
def exposes (name : Name) : Bool :=
  (p.find? name).any fun u =>
    u.members.any fun m => m.isExported && m.selector ≠ .topLevelExports

end Program

namespace State

variable (p : Program) (o : Options)

/-- The host may load or instantiate a unit that exposes members under its own name. -/
def exposeUnit (name : Name) (s : State) : State :=
  if p.exposes name then
    match p.kind? name with
    | none => s
    | some kind =>
      if kind.isModule then s.loadModule p o name (.unit name)
      else if kind.isInstantiable then s.instantiate p o name (.unit name)
      else s
  else s

def exportUnit (name : Name) (s : State) : State :=
  (p.exports name).foldl (fun s m => s.schedule p o m)
    ((s.reach p o name).exposeUnit p o name)

def addRoot (root : Root) (s : State) : State :=
  match root with
  | .unit name => s.require p o name .roots fun s => s.reach p o name
  | .member m => s.require p o m.owner .roots fun s => s.callExact p o m.owner m.selector .roots
  | .module name => s.require p o name .roots fun s => s.loadModule p o name .roots
  | .instantiate cls ctor => s.require p o cls .roots fun s =>
    (s.instantiate p o cls .roots).callExact p o cls (.ctor ctor) .roots

def plant (seed : Seed) (s : State) : State :=
  match seed with
  | .object => s.require p o Name.object .roots fun s => s.reach p o Name.object
  | .boxed cls => s.instantiate p o cls (.unit cls)
  | .exported name => s.exportUnit p o name
  | .root root => s.addRoot p o root

def seeded (roots : RootSet) : State :=
  (p.seeds roots).foldl (fun s seed => s.plant p o seed) {}

/-- Expands the member at the front of the queue. -/
def step (s : State) : State :=
  match s.queue with
  | [] => s
  | m :: rest =>
    let s := { s with queue := rest, progress := s.progress.set m .reached }
    s.expand p o (p.dependencies m) (.member (p.ref m))

def steps : Nat → State → State
  | 0, s => s
  | count + 1, s => steps count (s.step p o)

/-- Expands until the queue is empty: each member with a body is expanded at most once. -/
def run (roots : RootSet) : State :=
  (seeded p o roots).steps p o p.bodyCount

end State

end TreeShake
