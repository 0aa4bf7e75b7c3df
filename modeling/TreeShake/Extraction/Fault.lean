import TreeShake.Selector
import TreeShake.Ty.Describe

set_option autoImplicit false

/-!
Why code is refused: a virtual call whose receiver has a type without methods.
-/

namespace TreeShake

/-- A call of `method` on a receiver that can have none, in the members of `context`, the outermost
one first. -/
structure CallFault where
  receiver : Ty
  method : Name
  context : List Selector := []

namespace CallFault

def inMember (selector : Selector) (fault : CallFault) : CallFault :=
  { fault with context := selector :: fault.context }

/-- The fault itself, wherever it is. -/
def rootCause (fault : CallFault) : CallFault :=
  { fault with context := [] }

def message (fault : CallFault) : String :=
  let places := fault.context.map fun selector =>
    "in member " ++ selector.space.describe ++ " " ++ selector.name.describe ++ ": "
  String.join places ++ "invalid receiver type " ++ fault.receiver.describe ++
    " for virtual call to method " ++ fault.method.describe

end CallFault

/-- A fault in the definition of a unit. -/
structure UnitFault where
  unit : Name
  cause : CallFault

def UnitFault.message (fault : UnitFault) : String :=
  "failed to extract dependencies of unit " ++ fault.unit.describe ++ ": " ++ fault.cause.message

end TreeShake
