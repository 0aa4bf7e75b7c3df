import TreeShake.Dependencies.Basic
import TreeShake.Expr.Traversal
import TreeShake.Extraction.Fault

set_option autoImplicit false

/-!
The edges of a body: each node that is read contributes its own, and the first call without a
possible receiver, in the order of reading, refuses the whole body.
-/

namespace TreeShake

def Ty.edges (ty : Ty) : List Edge :=
  (ty.className?.map Edge.mention).toList

/-- The edges of a virtual call, by the type of its receiver. An array takes its methods from the
root class, apart from `clone`, and no object is ever of type `nothing` or `null`. -/
def Ty.callEdges (method : Name) : Ty → Except CallFault (List Edge)
  | .cls name => .ok [.call name method]
  | .any => .ok [.call Name.object method]
  | .prim p => .ok [.call p.boxedClass method]
  | .array _ =>
    if method = Name.clone then .ok [] else .ok [.callExact Name.object (.method method)]
  | .nothing | .null => .ok []
  | receiver => .error ⟨receiver, method, []⟩

def TypeRef.testEdges (target : TypeRef) : List Edge :=
  (target.className?.map Edge.testInstance).toList

def TypeRef.dataEdges (target : TypeRef) : List Edge :=
  (target.className?.map Edge.classData).toList

/-- The edges of a node apart from those of its type and of its parts. -/
def Node.edges : Node → Except CallFault (List Edge)
  | .literal (.classOf target) => .ok target.dataEdges
  | .declare _ ty _ _ => .ok ty.edges
  | .assign ⟨.staticField owner name, _⟩ _ => .ok [.writeField owner name]
  | .construct cls ctor _ => .ok (Edge.construction cls ctor)
  | .loadModule cls => .ok [.loadModule cls]
  | .field _ owner _ => .ok [.mention owner]
  | .staticField owner name => .ok [.readField owner name]
  | .call receiver method _ => receiver.ty.callEdges method
  | .callExact space _ owner method _ => .ok [.callExact owner ⟨space, method⟩]
  | .callStatic owner method _ => .ok [.callExact owner (.static method)]
  | .binary op _ divisor =>
    if op.isIntegralDivision && !divisor.isNonzeroIntegral then .ok Edge.arithmeticException
    else .ok []
  | .newArray type _ | .arrayOf type _ => .ok (TypeRef.array type).dataEdges
  | .isInstance _ target | .cast _ target => .ok target.testEdges
  | .closure params _ _ => .ok (params.flatMap fun param => param.2.edges)
  | .hostGlobal name => .ok [.hostGlobal name]
  | _ => .ok []

/-- The edges of a tree's root. The type of a transient node is a placeholder. -/
def Expr.ownEdges (e : Expr) : Except CallFault (List Edge) :=
  match e.node with
  | .transient .. => .ok []
  | node => node.edges.map (e.ty.edges ++ ·)

def Expr.edges (e : Expr) : Except CallFault (List Edge) :=
  (e.nodes.mapM Expr.ownEdges).map List.flatten

def Expr.dependencies (e : Expr) : Except CallFault Dependencies :=
  e.edges.map Dependencies.ofEdges

end TreeShake
