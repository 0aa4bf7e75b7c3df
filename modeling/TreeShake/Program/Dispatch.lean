import TreeShake.Program.Basic

set_option autoImplicit false

/-!
Which body a method call runs. A class inherits a body from its superclasses first. Without one, it
takes a body of one of its interfaces, but none that another candidate interface overrides.
-/

namespace TreeShake.Program

variable (p : Program)

/-- The body of a method that a unit declares itself. -/
def body? (owner method : Name) : Option Slot :=
  (p.slot? ⟨owner, .method method⟩).filter fun m => p.abstract? m = some false

def hasBody (owner method : Name) : Bool := (p.body? owner method).isSome

/-- The nearest superclass with a body, the class itself included. -/
def inherited? (cls method : Name) : Option Name :=
  ((p.superclasses cls).map UnitSummary.name).find? fun owner =>
    p.hasBody owner method

/-- The interfaces among some units that have a body for the method. -/
def defaultsAmong (lineage : List Name) (method : Name) : List Name :=
  lineage.filter fun owner => p.kind? owner = some .interface && p.hasBody owner method

/-- The interfaces above a class that have a body for the method. -/
def defaults (cls method : Name) : List Name := p.defaultsAmong (p.ancestors cls) method

def default? (cls method : Name) : Option Name :=
  let candidates := p.defaults cls method
  candidates.find? fun owner =>
    !candidates.any fun other => other ≠ owner && (p.ancestors other).contains owner

/-- The unit whose body runs when the method is called on an instance of the class. -/
def implementation? (cls method : Name) : Option Name :=
  (p.inherited? cls method).or (p.default? cls method)

/-- The body that runs when the method is called on an instance of the class. -/
def target? (cls method : Name) : Option Slot :=
  (p.implementation? cls method).bind fun owner => p.body? owner method

/-- The host provides the class or one of its superclasses, with members that are not known. -/
def isHostProvided (cls : Name) : Bool :=
  (p.superclasses cls).any fun u => u.kind.isNative

/-- The nearest declaration of a method along some units, if it is abstract. -/
def contractAmong? (lineage : List Name) (method : Name) : Option Slot :=
  (lineage.findSome? fun owner => p.slot? ⟨owner, .method method⟩).filter fun m =>
    p.abstract? m = some true

/-- The abstract declaration that a virtual call on the receiver goes through, if the nearest
declaration is abstract. -/
def contract? (receiver method : Name) : Option Slot :=
  p.contractAmong? (p.ancestors receiver) method

/-- The member that an exact call runs. A method may be inherited. An abstract one stands for itself
if nothing implements it. -/
def exactTarget? (owner : Name) (selector : Selector) : Option Slot :=
  if selector.space = .pub then
    (p.target? owner selector.name).or (p.slot? ⟨owner, selector⟩)
  else p.slot? ⟨owner, selector⟩

/-- An exact call with this selector may be answered by the host. -/
def hostAnswers (owner : Name) (selector : Selector) : Bool :=
  if selector.space = .pub then p.isHostProvided owner
  else (p.kind? owner).any UnitKind.isNative

end TreeShake.Program
