import TreeShake.Selector

set_option autoImplicit false

/-!
The elementary ways in which code depends on units, members, fields and host globals.
-/

namespace TreeShake

inductive Edge where
  | readField (owner field : Name)
  | writeField (owner field : Name)
  | call (receiver method : Name)
  | callExact (owner : Name) (target : Selector)
  | instantiate (cls : Name)
  | loadModule (cls : Name)
  | testInstance (cls : Name)
  | classData (cls : Name)
  | mention (cls : Name)
  | hostGlobal (name : Name)
  deriving DecidableEq, Repr

namespace Edge

/-- A new instance needs its class and the constructor that fills it. -/
def construction (cls ctor : Name) : List Edge :=
  [instantiate cls, callExact cls (.ctor ctor)]

/-- What a division needs to throw on a zero divisor. -/
def arithmeticException : List Edge :=
  construction Name.arithmeticException Name.messageConstructor

end Edge

end TreeShake
