import TreeShake.Dependencies.Basic

set_option autoImplicit false

/-!
Recording the dependencies of a piece of code, one step after the other. A step records an edge, the
edges of a new instance or of a division, or all the edges of another record.
-/

namespace TreeShake

inductive Recording where
  | edge (edge : Edge)
  | construction (cls ctor : Name)
  | arithmeticException
  /-- The other record need not be canonical. -/
  | all (d : Dependencies)
  deriving DecidableEq, Repr

def Recording.edges : Recording → List Edge
  | .edge recorded => [recorded]
  | .construction cls ctor => Edge.construction cls ctor
  | .arithmeticException => Edge.arithmeticException
  | .all d => d.edges

namespace Dependencies

def record (d : Dependencies) (step : Recording) : Dependencies :=
  d.insertAll step.edges

/-- The record of all the steps. -/
def ofRecordings (steps : List Recording) : Dependencies :=
  steps.foldl record {}

end Dependencies

end TreeShake
