import TreeShake.Name.WellKnown

set_option autoImplicit false

/-!
Static types. Only the class that a type names matters to the linker: it is the class itself, or the
class of an array's innermost elements.
-/

namespace TreeShake

inductive Prim where
  | unit
  | boolean
  | char
  | byte
  | short
  | int
  | long
  | float
  | double
  | string
  deriving DecidableEq, Repr, Inhabited

/-- The class whose methods a primitive value answers to. -/
def Prim.boxedClass : Prim → Name
  | unit => ⟨2⟩
  | boolean => ⟨3⟩
  | char => ⟨4⟩
  | byte => ⟨5⟩
  | short => ⟨6⟩
  | int => ⟨7⟩
  | long => ⟨8⟩
  | float => ⟨9⟩
  | double => ⟨10⟩
  | string => ⟨11⟩

/-- The type of an array's innermost elements. -/
inductive ElementType where
  | prim (p : Prim)
  | cls (name : Name)
  deriving DecidableEq, Repr, Inhabited

def ElementType.className? : ElementType → Option Name
  | prim _ => none
  | .cls name => some name

/-- An array has at least one dimension. -/
structure ArrayType where
  element : ElementType
  dimensions : Nat
  dimensions_pos : 0 < dimensions := by decide
  deriving DecidableEq, Repr

namespace ArrayType

/-- Why an array type is refused. -/
inductive Fault where
  | noDimensions
  deriving DecidableEq, Repr

def Fault.message : Fault → String
  | noDimensions => "assertion failed: dimensions > 0"

def ofDimensions (element : ElementType) (dimensions : Nat) : Except Fault ArrayType :=
  if pos : 0 < dimensions then .ok ⟨element, dimensions, pos⟩ else .error .noDimensions

def className? (a : ArrayType) : Option Name := a.element.className?

end ArrayType

/-- A type that a test, a cast or a class literal can name. -/
inductive TypeRef where
  | prim (p : Prim)
  | cls (name : Name)
  | array (a : ArrayType)
  deriving DecidableEq, Repr

def TypeRef.className? : TypeRef → Option Name
  | prim _ => none
  | .cls name => some name
  | array a => a.className?

mutual

/-- The type of an expression. A statement has the type `noValue`. -/
inductive Ty where
  | any
  | nothing
  | null
  | noValue
  | prim (p : Prim)
  | cls (name : Name)
  | array (a : ArrayType)
  | record (fields : List RecordField)

structure RecordField where
  name : Name
  ty : Ty

end

instance : Inhabited Ty := ⟨.noValue⟩

instance : Inhabited RecordField := ⟨⟨default, default⟩⟩

/-- The class that a type names. The types inside a record are not looked at. -/
def Ty.className? : Ty → Option Name
  | .cls name => some name
  | .array a => a.className?
  | _ => none

def TypeRef.toTy : TypeRef → Ty
  | prim p => .prim p
  | .cls name => .cls name
  | array a => .array a

end TreeShake
