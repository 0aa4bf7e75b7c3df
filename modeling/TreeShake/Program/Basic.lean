import Std.Data.TreeMap
import TreeShake.Program.Hierarchy

set_option autoImplicit false

/-!
Programs: units with distinct names, found by name. Units are asked for by name, and the records of a
unit by position, so that two programs with the same declarations give the same answers.
-/

namespace TreeShake

namespace UnitSummary

/-- The first unit of each name, in order. -/
def firsts : List UnitSummary → List UnitSummary
  | [] => []
  | u :: rest => u :: (firsts rest).filter fun later => later.name ≠ u.name

theorem firsts_distinct (units : List UnitSummary) : ((firsts units).map name).Nodup := by
  induction units with
  | nil => exact List.nodup_nil
  | cons u rest ih =>
    rw [firsts, List.map_cons, List.nodup_cons]
    constructor
    · simp
    · exact ih.sublist (List.filter_sublist.map name)

theorem find?_firsts (units : List UnitSummary) (wanted : Name) :
    (firsts units).find? (fun u => u.name = wanted) = units.find? fun u => u.name = wanted := by
  induction units with
  | nil => rfl
  | cons u rest ih =>
    rw [firsts, List.find?_cons, List.find?_cons, List.find?_filter, ← ih]
    by_cases same : u.name = wanted
    · simp [same]
    · -- What is left out has another name than the wanted one.
      have kept : ∀ later : UnitSummary, later.name = wanted → later.name ≠ u.name :=
        fun later named again => same (again.symm.trans named)
      simp only [same, decide_false]
      congr 1
      funext later
      simpa using kept later

def index (units : List UnitSummary) : Std.TreeMap Name UnitSummary :=
  units.foldr (fun u found => found.insert u.name u) ∅

theorem getElem?_index (units : List UnitSummary) (wanted : Name) :
    (index units)[wanted]? = units.find? fun u => u.name = wanted := by
  induction units with
  | nil => exact Std.TreeMap.getElem?_emptyc
  | cons u rest ih =>
    rw [index, List.foldr_cons, ← index, Std.TreeMap.getElem?_insert, List.find?_cons, ih]
    by_cases same : u.name = wanted
    · simp [same]
    · simp [same]

end UnitSummary

structure Program where
  units : List UnitSummary
  index : Std.TreeMap Name UnitSummary
  distinct : (units.map UnitSummary.name).Nodup
  index_eq : ∀ name, index[name]? = units.find? fun u => u.name = name

namespace Program

/-- Of several units with one name the first counts. -/
def ofUnits (units : List UnitSummary) : Program :=
  let kept := UnitSummary.firsts units
  { units := kept
    index := UnitSummary.index kept
    distinct := UnitSummary.firsts_distinct units
    index_eq := UnitSummary.getElem?_index kept }

variable (p : Program)

def size : Nat := p.units.length

def find? (name : Name) : Option UnitSummary := p.index[name]?

theorem find?_eq_some_iff {name : Name} {u : UnitSummary} :
    p.find? name = some u ↔ u ∈ p.units ∧ u.name = name := by
  have distinct := p.distinct
  rw [find?, p.index_eq]
  generalize p.units = units at distinct ⊢
  induction units with
  | nil => simp
  | cons first rest ih =>
    obtain ⟨fresh, distinct⟩ := List.nodup_cons.mp distinct
    rw [List.find?_cons]
    by_cases same : first.name = name
    · simp only [same, decide_true, Option.some.injEq, List.mem_cons]
      constructor
      · rintro rfl
        exact ⟨.inl rfl, same⟩
      · rintro ⟨rfl | member, named⟩
        · rfl
        · exact absurd (List.mem_map.mpr ⟨u, member, named.trans same.symm⟩) fresh
    · simp only [same, decide_false, ih distinct, List.mem_cons]
      constructor
      · rintro ⟨member, named⟩
        exact ⟨.inr member, named⟩
      · rintro ⟨rfl | member, named⟩
        · exact absurd named same
        · exact ⟨member, named⟩

theorem find?_ofUnits (units : List UnitSummary) (name : Name) :
    (ofUnits units).find? name = units.find? fun u => u.name = name :=
  ((ofUnits units).index_eq name).trans (UnitSummary.find?_firsts units name)

def contains (name : Name) : Bool := (p.find? name).isSome

def kind? (name : Name) : Option UnitKind := (p.find? name).map UnitSummary.kind

/-- The parents that a unit declares, present or not. -/
def parents (name : Name) : List Name := Hierarchy.declared p.find? name

def fieldClasses (name : Name) : List Name :=
  ((p.find? name).map UnitSummary.fieldClasses).getD []

/-- Where the member that is referred to stands. -/
def slot? (m : MemberRef) : Option Slot :=
  (p.find? m.owner).bind fun u => (u.position? m.selector).map (Slot.mk m.owner)

def member? (m : Slot) : Option MemberSummary :=
  (p.find? m.owner).bind fun u => u.members[m.position]?

/-- Whether a member is abstract, if it is declared. -/
def abstract? (m : Slot) : Option Bool := (p.member? m).map MemberSummary.isAbstract

def dependencies (m : Slot) : Dependencies :=
  ((p.member? m).map MemberSummary.dependencies).getD {}

def declares (m : MemberRef) : Bool := (p.slot? m).isSome

/-- How the member that stands in a slot is referred to. -/
def ref (m : Slot) : MemberRef :=
  ⟨m.owner, ((p.member? m).map MemberSummary.selector).getD default⟩

/-- The unit itself, then all units above it. -/
def ancestors (name : Name) : List Name := Hierarchy.ancestors p.find? p.size name

/-- The unit and its superclasses, the nearest first. -/
def superclasses (name : Name) : List UnitSummary := Hierarchy.superclasses p.find? p.size name

/-- How many members have a body. -/
def bodyCount : Nat :=
  (p.units.flatMap UnitSummary.members).countP fun m => !m.isAbstract

variable {p}

@[simp] theorem owner_ref (m : Slot) : (p.ref m).owner = m.owner := rfl

theorem ref_of_member? {m : Slot} {summary : MemberSummary} (present : p.member? m = some summary) :
    p.ref m = ⟨m.owner, summary.selector⟩ := by
  rw [ref, present]
  rfl

theorem member?_of_slot? {m : MemberRef} {slot : Slot} (found : p.slot? m = some slot) :
    ∃ summary, p.member? slot = some summary ∧ summary.selector = m.selector := by
  obtain ⟨u, unit, found⟩ := Option.bind_eq_some_iff.mp found
  obtain ⟨i, position, rfl⟩ := Option.map_eq_some_iff.mp found
  obtain ⟨summary, present, same⟩ := Ascending.getElem?_of_position? position
  exact ⟨summary, by rw [member?, unit, Option.bind_some, present], same⟩

theorem owner_of_slot? {m : MemberRef} {slot : Slot} (found : p.slot? m = some slot) :
    slot.owner = m.owner := by
  obtain ⟨u, -, found⟩ := Option.bind_eq_some_iff.mp found
  obtain ⟨i, -, rfl⟩ := Option.map_eq_some_iff.mp found
  rfl

/-- What a reference finds is referred to by it. -/
theorem ref_of_slot? {m : MemberRef} {slot : Slot} (found : p.slot? m = some slot) :
    p.ref slot = m := by
  obtain ⟨summary, present, same⟩ := member?_of_slot? found
  rw [ref_of_member? present, same, owner_of_slot? found]

end Program

end TreeShake
