import TreeShake.Selector
import TreeShake.Ty.Basic

set_option autoImplicit false

/-!
Typed expression trees, the bodies that the linker reads.
-/

namespace TreeShake

inductive UnaryOp where
  | not
  | neg
  | intToLong
  | longToInt
  | intToDouble
  | doubleToInt
  deriving DecidableEq, Repr

inductive BinaryOp where
  | eq
  | notEq
  | intAdd
  | intSub
  | intMul
  | intDiv
  | intRem
  | longAdd
  | longSub
  | longMul
  | longDiv
  | longRem
  | doubleAdd
  | doubleSub
  | doubleMul
  | doubleDiv
  | doubleRem
  | intLt
  | intLe
  | intGt
  | intGe
  | booleanAnd
  | booleanOr
  | stringConcat
  deriving DecidableEq, Repr

/-- The operations that throw on a zero divisor. -/
def BinaryOp.isIntegralDivision : BinaryOp → Bool
  | intDiv | intRem | longDiv | longRem => true
  | _ => false

inductive Literal where
  | undefined
  | null
  | boolean (value : Bool)
  | char (value : Char)
  | byte (value : Int8)
  | short (value : Int16)
  | int (value : Int32)
  | long (value : Int64)
  | float (value : Float32)
  | double (value : Float)
  | string (text : Name)
  | classOf (target : TypeRef)

def Literal.isNonzeroIntegral : Literal → Bool
  | byte value => value != 0
  | short value => value != 0
  | int value => value != 0
  | long value => value != 0
  | _ => false

mutual

inductive Node where
  | skip
  | self
  | literal (value : Literal)
  | variable (name : Name)
  | block (statements : List Expr)
  | declare (name : Name) (ty : Ty) (mutable : Bool) (value : Expr)
  | assign (target value : Expr)
  | branch (condition onTrue onFalse : Expr)
  | loop (condition body : Expr)
  | leave (value : Expr)
  | throw (exception : Expr)
  | tryCatch (body : Expr) (caught : Name) (handler : Expr)
  | tryFinally (body finalizer : Expr)
  | construct (cls ctor : Name) (arguments : List Expr)
  | loadModule (cls : Name)
  | field (object : Expr) (owner name : Name)
  | staticField (owner name : Name)
  /-- A virtual call: the method is found in the class of the receiver's value. -/
  | call (receiver : Expr) (method : Name) (arguments : List Expr)
  /-- A call of the member that the owner itself selects. -/
  | callExact (space : Namespace) (receiver : Expr) (owner method : Name) (arguments : List Expr)
  | callStatic (owner method : Name) (arguments : List Expr)
  | unary (op : UnaryOp) (operand : Expr)
  | binary (op : BinaryOp) (left right : Expr)
  | newArray (type : ArrayType) (lengths : List Expr)
  | arrayOf (type : ArrayType) (elements : List Expr)
  | arrayLength (array : Expr)
  | arrayElement (array index : Expr)
  | record (values : List Expr)
  | isInstance (value : Expr) (target : TypeRef)
  | cast (value : Expr) (target : TypeRef)
  | classOf (value : Expr)
  | closure (params : List (Name × Ty)) (captures : List Expr) (body : Expr)
  | hostGlobal (name : Name)
  | hostCall (target : Expr) (arguments : List Expr)
  /-- A marker that later phases expand. It has no type of its own. -/
  | transient (name : Name) (arguments : List Expr)

structure Expr where
  node : Node
  ty : Ty

end

instance : Inhabited Node := ⟨.skip⟩

instance : Inhabited Expr := ⟨⟨default, default⟩⟩

namespace Expr

/-- A divisor of which it is known that it is not zero. -/
def isNonzeroIntegral (e : Expr) : Bool :=
  match e.node with
  | .literal value => value.isNonzeroIntegral
  | _ => false

end Expr

end TreeShake
