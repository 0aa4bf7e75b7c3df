import TreeShake.Reachability.Run

set_option autoImplicit false

/-!
The result of the analysis: what to keep of each unit, and the defects that were found.
-/

namespace TreeShake

structure UnitReport where
  name : Name
  kind : UnitKind
  uses : List Use
  /-- The live members with a body. -/
  members : List Selector
  /-- The live abstract members. -/
  contracts : List Selector
  reads : List Name
  writes : List Name
  deriving DecidableEq, Repr

namespace UnitReport

def has (r : UnitReport) (use : Use) : Bool := use ∈ r.uses

def useBits (r : UnitReport) : Nat :=
  r.uses.foldl (fun bits use => bits + use.weight) 0

def keeps (r : UnitReport) (selector : Selector) : Bool := selector ∈ r.members

end UnitReport

structure Report where
  units : List UnitReport
  hostGlobals : List Name
  diagnostics : List Diagnostic
  deriving DecidableEq, Repr

namespace State

variable (s : State)

def liveMembers (u : UnitSummary) (isAbstract : Bool) : List Selector :=
  (u.members.zipIdx.filter fun entry => s.progress.get ⟨u.name, entry.2⟩ = .reached &&
    entry.1.isAbstract = isAbstract).map fun entry => entry.1.selector

def unitReport (u : UnitSummary) : UnitReport where
  name := u.name
  kind := u.kind
  uses := Use.all.filter (s.has u.name)
  members := s.liveMembers u false
  contracts := s.liveMembers u true
  reads := s.reads.get u.name
  writes := s.writes.get u.name

/-- The reached units in the order of their names. -/
def finish (p : Program) : Report where
  units := Ascending.collect UnitReport.name (fun first _ => first)
    ((p.units.filter fun u => s.has u.name .reached).map s.unitReport)
  hostGlobals := s.hostGlobals
  diagnostics := s.diagnostics.entries

end State

def Program.analyze (p : Program) (config : Config) : Report :=
  (State.run p config.toOptions config.roots).finish p

namespace Report

variable (r : Report)

def unit? (name : Name) : Option UnitReport := r.units.find? fun u => u.name = name

def has (name : Name) (use : Use) : Bool := (r.unit? name).any fun u => u.has use

def keeps (m : MemberRef) : Bool := (r.unit? m.owner).any fun u => u.keeps m.selector

def reads (name : Name) : List Name := ((r.unit? name).map UnitReport.reads).getD []

def writes (name : Name) : List Name := ((r.unit? name).map UnitReport.writes).getD []

def contracts (name : Name) : List Selector := ((r.unit? name).map UnitReport.contracts).getD []

/-- The units that are used in this way. -/
def unitsWith (use : Use) : List Name :=
  (r.units.filter fun u => u.has use).map UnitReport.name

def reachedUnits : List Name := r.units.map UnitReport.name

def isReached (name : Name) : Bool := (r.unit? name).isSome

def hasDefects : Bool := !r.diagnostics.isEmpty

end Report

end TreeShake
