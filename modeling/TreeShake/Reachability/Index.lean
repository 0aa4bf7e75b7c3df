import Std.Data.TreeMap
import TreeShake.Reachability.Report

set_option autoImplicit false

/-!
Queries about the units of a report. A unit is found by its name through an index, and a member by
halving the ascending list of the members that are kept.
-/

namespace TreeShake

/-- The units of a report, and where each of them stands. -/
structure Index where
  units : Array UnitReport
  positions : Std.TreeMap Name Nat

def Report.index (r : Report) : Index where
  units := r.units.toArray
  positions := .ofList r.reachedUnits.zipIdx

namespace Index

variable (index : Index)

def unit? (name : Name) : Option UnitReport :=
  index.positions[name]?.bind fun position => index.units[position]?

def isReached (name : Name) : Bool := index.positions.contains name

def has (name : Name) (use : Use) : Bool := (index.unit? name).any fun u => u.has use

def keeps (m : MemberRef) : Bool :=
  (index.unit? m.owner).any fun u => (Ascending.position? id m.selector u.members).isSome

/-- A list that is part of the report of a unit. It is empty for a unit that is not reached. -/
def list {α : Type} (view : UnitReport → List α) (name : Name) : List α :=
  ((index.unit? name).map view).getD []

def reads (name : Name) : List Name := index.list UnitReport.reads name

def writes (name : Name) : List Name := index.list UnitReport.writes name

def contracts (name : Name) : List Selector := index.list UnitReport.contracts name

end Index

end TreeShake
