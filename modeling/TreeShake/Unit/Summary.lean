import TreeShake.Dependencies.Basic
import TreeShake.Unit.Definition

set_option autoImplicit false

/-!
What the linker keeps of a unit: its place in the hierarchy, and of each member its dependencies.
Summaries of two versions of a unit can be put together, so that nothing that either version depends
on is lost.
-/

namespace TreeShake

structure MemberSummary where
  selector : Selector
  isAbstract : Bool := false
  isExported : Bool := false
  dependencies : Dependencies := {}
  deriving DecidableEq, Repr, Inhabited

/-- Two declarations of one member: abstract if both are, exported if one is, with the edges of
both. -/
def MemberSummary.merge (first second : MemberSummary) : MemberSummary where
  selector := first.selector
  isAbstract := first.isAbstract && second.isAbstract
  isExported := first.isExported || second.isExported
  dependencies := first.dependencies.union second.dependencies

structure UnitSummary where
  name : Name
  kind : UnitKind
  superclass : Option Name := none
  interfaces : List Name := []
  /-- The classes that the types of the fields name. -/
  fieldClasses : List Name := []
  members : List MemberSummary := []
  isExported : Bool := false
  exportNames : List Name := []
  deriving DecidableEq, Repr, Inhabited

namespace UnitSummary

/-- Where the member with this selector stands. -/
def position? (u : UnitSummary) (selector : Selector) : Option Nat :=
  Ascending.position? MemberSummary.selector selector u.members

def member? (u : UnitSummary) (selector : Selector) : Option MemberSummary :=
  (u.position? selector).bind fun i => u.members[i]?

theorem member?_eq_some_iff {u : UnitSummary}
    (ascending : Ascending.By MemberSummary.selector u.members) {selector : Selector}
    {m : MemberSummary} : u.member? selector = some m ↔ m ∈ u.members ∧ m.selector = selector := by
  rw [member?, Option.bind_eq_some_iff]
  constructor
  · rintro ⟨i, found, stands⟩
    obtain ⟨n, also, named⟩ := Ascending.getElem?_of_position? found
    obtain rfl := Option.some.inj (also.symm.trans stands)
    exact ⟨List.mem_of_getElem? stands, named⟩
  · rintro ⟨member, rfl⟩
    obtain ⟨i, stands⟩ := List.mem_iff_getElem?.mp member
    exact ⟨i, Ascending.position?_of_getElem? ascending stands, stands⟩

def topLevelExports? (u : UnitSummary) : Option MemberSummary :=
  u.member? .topLevelExports

/-- The superclass and the interfaces, in declared order. -/
def parents (u : UnitSummary) : List Name :=
  u.superclass.toList ++ u.interfaces

/-- Adds a member at its place, or merges it into the one already there. -/
def addMember (members : List MemberSummary) (m : MemberSummary) : List MemberSummary :=
  Ascending.upsert MemberSummary.selector MemberSummary.merge m members

/-- The newer version of a unit, with the members and the field classes of both. -/
def absorb (older newer : UnitSummary) : UnitSummary :=
  { newer with
    members := newer.members.foldl
      (fun members m => Ascending.put MemberSummary.selector MemberSummary.merge m members)
      older.members
    fieldClasses := Ascending.ofList (older.fieldClasses ++ newer.fieldClasses) }

theorem members_absorb {older : UnitSummary}
    (ascending : Ascending.By MemberSummary.selector older.members) (newer : UnitSummary) :
    (older.absorb newer).members = newer.members.foldl addMember older.members := by
  have keeps : ∀ old entry : MemberSummary, (old.merge entry).selector = old.selector :=
    fun _ _ => rfl
  exact Ascending.foldl_put_eq keeps ascending newer.members

end UnitSummary

end TreeShake
