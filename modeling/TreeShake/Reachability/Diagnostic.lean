import Std.Data.TreeMap
import TreeShake.Name.Table
import TreeShake.Selector

set_option autoImplicit false

/-!
What is wrong with a program, and where it was referred to. Each defect is listed once, in the order
of first discovery, with its referrers in the same order. A table says where each defect is listed,
and agrees with the list.
-/

namespace TreeShake

inductive Defect where
  | missingUnit (name : Name)
  | missingMember (m : MemberRef)
  | notAModule (name : Name)
  | notInstantiable (name : Name)
  deriving DecidableEq, Repr

namespace Defect

def rank : Defect → Nat
  | missingUnit _ => 0
  | missingMember _ => 1
  | notAModule _ => 2
  | notInstantiable _ => 3

/-- What the defect is about. -/
def subject : Defect → MemberRef
  | missingMember m => m
  | missingUnit name | notAModule name | notInstantiable name => ⟨name, default⟩

instance : Ord Defect := ⟨compareLex (compareOn rank) (compareOn subject)⟩

instance : Std.TransOrd Defect :=
  inferInstanceAs (Std.TransCmp (compareLex (compareOn rank) (compareOn subject)))

instance : Std.LawfulEqOrd Defect where
  compare_self {a} := compareLex_eq_eq.mpr ⟨Std.ReflOrd.compare_self, Std.ReflOrd.compare_self⟩
  eq_of_compare {a b} same := by
    obtain ⟨ranks, subjects⟩ := eq_of_compareLex same
    cases a <;> cases b <;> simp_all [rank, subject]

end Defect

inductive Referrer where
  | roots
  | unit (name : Name)
  | member (m : MemberRef)
  deriving DecidableEq, Repr

structure Diagnostic where
  defect : Defect
  referrers : List Referrer
  deriving DecidableEq, Repr

def Diagnostic.refer (d : Diagnostic) (referrer : Referrer) : Diagnostic :=
  if referrer ∈ d.referrers then d else { d with referrers := d.referrers ++ [referrer] }

@[simp] theorem Diagnostic.defect_refer (d : Diagnostic) (referrer : Referrer) :
    (d.refer referrer).defect = d.defect := by
  unfold refer
  split <;> rfl

structure DiagnosticLog where
  entries : List Diagnostic := []
  positions : Std.TreeMap Defect Nat := ∅
  agree : ∀ (defect : Defect) (i : Nat),
    positions[defect]? = some i ↔ (entries.map Diagnostic.defect)[i]? = some defect := by simp

namespace DiagnosticLog

instance : EmptyCollection DiagnosticLog := ⟨{}⟩

variable (log : DiagnosticLog) (defect : Defect) (referrer : Referrer)

theorem defects_modify (i : Nat) :
    (log.entries.modify i (·.refer referrer)).map Diagnostic.defect =
      log.entries.map Diagnostic.defect := by
  apply List.ext_getElem?
  intro j
  rw [List.getElem?_map, List.getElem?_map, List.getElem?_modify]
  cases log.entries[j]? with
  | none => rfl
  | some d =>
    by_cases same : i = j
    · simp [same]
    · simp [same]

/-- A defect that the table does not have is not listed, so the end of the list is its place. -/
theorem agree_push (unlisted : log.positions[defect]? = none) (other : Defect) (i : Nat) :
    (log.positions.insert defect log.entries.length)[other]? = some i ↔
      ((log.entries ++ [(⟨defect, [referrer]⟩ : Diagnostic)]).map Diagnostic.defect)[i]? =
        some other := by
  have agree := log.agree
  rw [List.map_append, List.map_singleton, Std.TreeMap.getElem?_insert,
    ← List.length_map (f := Diagnostic.defect)]
  generalize log.entries.map Diagnostic.defect = defects at agree ⊢
  by_cases same : defect = other
  · have absent : ∀ j : Nat, defects[j]? ≠ some other := by
      intro j listed
      rw [← same, ← agree, unlisted] at listed
      cases listed
    rw [if_pos (by simp [same]), List.getElem?_append]
    split
    · next inside =>
      simp only [absent, iff_false, Option.some.injEq]
      omega
    · simp [same, List.getElem?_singleton]
      omega
  · rw [if_neg (by simp [same]), agree, List.getElem?_append]
    split
    · rfl
    · next outside =>
      have beyond : defects[i]? = none := List.getElem?_eq_none (Nat.le_of_not_lt outside)
      simp [beyond, same, List.getElem?_singleton]

/-- Lists a defect, or adds a referrer to the one already listed. -/
def record : DiagnosticLog :=
  match unlisted : log.positions[defect]? with
  | some i =>
    { log with
      entries := log.entries.modify i (·.refer referrer)
      agree := fun other j => by rw [defects_modify, log.agree] }
  | none =>
    { entries := log.entries ++ [⟨defect, [referrer]⟩]
      positions := log.positions.insert defect log.entries.length
      agree := log.agree_push defect referrer unlisted }

end DiagnosticLog

def Defect.code : Defect → String
  | missingUnit _ => "L0001"
  | missingMember _ => "L0002"
  | notAModule _ => "L0003"
  | notInstantiable _ => "L0004"

def MemberRef.text (names : NameTable) (m : MemberRef) : String :=
  names.text m.owner ++ "." ++ m.selector.space.qualifier ++ names.text m.selector.name

def Defect.text (names : NameTable) : Defect → String
  | missingUnit name => "referring to non-existent unit `" ++ names.text name ++ "`"
  | missingMember m => "referring to non-existent member `" ++ m.text names ++ "`"
  | notAModule name => "loading `" ++ names.text name ++ "`, which is not a module"
  | notInstantiable name => "constructing `" ++ names.text name ++ "`, which cannot have instances"

def Referrer.text (names : NameTable) : Referrer → String
  | roots => "the root set"
  | unit name => "unit `" ++ names.text name ++ "`"
  | member m => m.text names

def Diagnostic.text (names : NameTable) (d : Diagnostic) : String :=
  let places := d.referrers.map fun referrer => "\n  referenced from " ++ referrer.text names
  "error[" ++ d.defect.code ++ "]: " ++ d.defect.text names ++ String.join places

end TreeShake
