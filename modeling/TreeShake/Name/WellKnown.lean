import TreeShake.Name.Basic

set_option autoImplicit false

/-!
The names that the linker itself refers to. They occupy the first indices of every table of names,
after the empty name, in the order of `wellKnownTexts`.
-/

namespace TreeShake.Name

def empty : Name := ⟨0⟩

def wellKnownTexts : List String :=
  ["lang.Object", "lang.BoxedUnit", "lang.Boolean", "lang.Character", "lang.Byte", "lang.Short",
    "lang.Integer", "lang.Long", "lang.Float", "lang.Double", "lang.String",
    "lang.ArithmeticException", "<init>", "<init>(lang.String)", "<clinit>", "clone", "<exports>"]

/-- The texts that every table of names starts with. -/
def reservedTexts : List String := "" :: wellKnownTexts

/-- The root of the class hierarchy. -/
def object : Name := ⟨1⟩

/-- The exception that an integral division by zero throws. -/
def arithmeticException : Name := ⟨12⟩

/-- The constructor without parameters, which loads a module. -/
def defaultConstructor : Name := ⟨13⟩

/-- The constructor that takes a message. -/
def messageConstructor : Name := ⟨14⟩

def staticInitializer : Name := ⟨15⟩

/-- The one method that arrays answer themselves. -/
def clone : Name := ⟨16⟩

/-- The member that stands for a unit's top-level exports. -/
def topLevelExports : Name := ⟨17⟩

end TreeShake.Name
