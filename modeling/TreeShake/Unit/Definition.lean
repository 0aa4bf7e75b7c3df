import TreeShake.Expr.Basic

set_option autoImplicit false

/-!
Units of code as a compiler hands them to the linker: classes, interfaces and modules with their
fields, methods, properties and top-level exports.
-/

namespace TreeShake

inductive UnitKind where
  | plainClass
  | interface
  | moduleClass
  /-- A class whose instances are primitive values. -/
  | boxedClass
  | hostClass
  | hostModule
  /-- A class that the host provides. Its members are not known. -/
  | nativeClass
  deriving DecidableEq, Repr, Inhabited

namespace UnitKind

def isModule : UnitKind → Bool
  | moduleClass | hostModule => true
  | _ => false

def isNative (kind : UnitKind) : Bool := kind = nativeClass

def isInstantiable (kind : UnitKind) : Bool := kind ≠ interface

end UnitKind

structure FieldDef where
  name : Name
  ty : Ty
  isStatic : Bool := false

structure MethodDef where
  selector : Selector
  params : List (Name × Ty) := []
  result : Ty := .noValue
  /-- An abstract method has no body. -/
  body : Option Expr := none
  isExported : Bool := false

structure Setter where
  param : Name × Ty
  body : Expr

structure PropertyDef where
  name : Name
  getter : Option Expr := none
  setter : Option Setter := none

inductive ExportTarget where
  | function (body : Expr)
  | field (name : Name)
  | moduleAccessor

/-- A definition that the unit makes visible outside the program. -/
structure ExportDef where
  name : Name
  target : ExportTarget

structure UnitDef where
  name : Name
  kind : UnitKind
  superclass : Option Name := none
  interfaces : List Name := []
  fields : List FieldDef := []
  methods : List MethodDef := []
  properties : List PropertyDef := []
  exports : List ExportDef := []

end TreeShake
