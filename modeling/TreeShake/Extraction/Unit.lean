import TreeShake.Extraction.Body
import TreeShake.Unit.Summary

set_option autoImplicit false

/-!
Summaries of definitions. A property is a public member, and the top-level exports of a unit make up
one static member. Definitions with the same selector are one member.
-/

namespace TreeShake

/-- The edges of a body that may be missing. -/
def bodyEdges (body : Option Expr) : Except CallFault (List Edge) :=
  body.elim (.ok []) Expr.edges

/-- The summary of a member, from its edges. -/
def MemberSummary.ofEdges (selector : Selector) (isAbstract isExported : Bool)
    (edges : Except CallFault (List Edge)) : Except CallFault MemberSummary :=
  match edges with
  | .ok edges => .ok ⟨selector, isAbstract, isExported, .ofEdges edges⟩
  | .error fault => .error (fault.inMember selector)

namespace MethodDef

def signatureEdges (m : MethodDef) : List Edge :=
  m.params.flatMap (fun param => param.2.edges) ++ m.result.edges

def summary (m : MethodDef) : Except CallFault MemberSummary :=
  MemberSummary.ofEdges m.selector m.body.isNone m.isExported do
    return m.signatureEdges ++ (← bodyEdges m.body)

end MethodDef

namespace PropertyDef

def selector (p : PropertyDef) : Selector := .method p.name

def setterEdges (p : PropertyDef) : Except CallFault (List Edge) :=
  match p.setter with
  | none => .ok []
  | some setter => setter.body.edges.map (setter.param.2.edges ++ ·)

def summary (p : PropertyDef) : Except CallFault MemberSummary :=
  MemberSummary.ofEdges p.selector false true do
    let getter ← bodyEdges p.getter
    return getter ++ (← p.setterEdges)

end PropertyDef

namespace ExportDef

def edges (owner : Name) (e : ExportDef) : Except CallFault (List Edge) :=
  match e.target with
  | .function body => body.edges
  | .field name => .ok [.readField owner name, .writeField owner name]
  | .moduleAccessor => .ok [.loadModule owner]

def summary (owner : Name) (exports : List ExportDef) : Except CallFault MemberSummary :=
  MemberSummary.ofEdges .topLevelExports false true ((exports.mapM (edges owner)).map List.flatten)

end ExportDef

namespace UnitDef

/-- A unit without exports has no member for them. -/
def exportSummaries (u : UnitDef) : Except CallFault (List MemberSummary) :=
  if u.exports.isEmpty then .ok [] else (ExportDef.summary u.name u.exports).map fun m => [m]

/-- One summary for each definition: methods, properties, then exports. -/
def memberSummaries (u : UnitDef) : Except CallFault (List MemberSummary) := do
  let methods ← u.methods.mapM MethodDef.summary
  let properties ← u.properties.mapM PropertyDef.summary
  let exports ← u.exportSummaries
  return methods ++ properties ++ exports

def fieldClasses (u : UnitDef) : List Name :=
  Ascending.ofList (u.fields.filterMap fun field => field.ty.className?)

def isExported (u : UnitDef) : Bool :=
  !u.exports.isEmpty || !u.properties.isEmpty || u.methods.any MethodDef.isExported

def summary (u : UnitDef) : Except CallFault UnitSummary := do
  let members ← u.memberSummaries
  return {
    name := u.name
    kind := u.kind
    superclass := u.superclass
    interfaces := u.interfaces
    fieldClasses := u.fieldClasses
    members := members.foldl UnitSummary.addMember []
    isExported := u.isExported
    exportNames := u.exports.map ExportDef.name }

/-- The summaries of the units, or the fault in the first unit that has one. -/
def summaries (units : List UnitDef) : Except UnitFault (List UnitSummary) :=
  units.mapM fun u => u.summary.mapError fun cause => ⟨u.name, cause⟩

end UnitDef

end TreeShake
