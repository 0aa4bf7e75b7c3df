import TreeShake.Name.WellKnown

set_option autoImplicit false

/-!
How members are addressed. Inside a unit a member is selected by its namespace and its name, and
selectors are ordered by namespace first. A member of the whole program is selected in its owner. The
record of a member stands at a position there: two records may have one selector, and each has a
slot of its own.
-/

namespace TreeShake

inductive Namespace where
  | pub
  | priv
  | ctor
  | static
  deriving DecidableEq, Repr, Inhabited

namespace Namespace

def rank : Namespace → Nat
  | pub => 0
  | priv => 1
  | ctor => 2
  | static => 3

theorem rank_injective {a b : Namespace} (same : a.rank = b.rank) : a = b := by
  cases a <;> cases b <;> first | rfl | contradiction

/-- What stands before a member's name where its namespace has to be seen. -/
def qualifier : Namespace → String
  | pub => ""
  | priv => "private::"
  | ctor => "ctor::"
  | static => "static::"

/-- The namespace as diagnostics about definitions show it. -/
def describe : Namespace → String
  | pub => "Public"
  | priv => "Private"
  | ctor => "Constructor"
  | static => "Static"

end Namespace

/-- A member inside its unit. -/
structure Selector where
  space : Namespace
  name : Name
  deriving DecidableEq, Repr, Inhabited

/-- Two parts that are equal in order are equal, if the orders of the parts are lawful. -/
theorem eq_of_compareLex {α β γ : Type} [Ord β] [Ord γ] [Std.LawfulEqOrd β] [Std.LawfulEqOrd γ]
    {first : α → β} {second : α → γ} {a b : α}
    (same : compareLex (compareOn first) (compareOn second) a b = .eq) :
    first a = first b ∧ second a = second b :=
  (compareLex_eq_eq.mp same).imp Std.LawfulEqOrd.eq_of_compare Std.LawfulEqOrd.eq_of_compare

namespace Selector

def method (name : Name) : Selector := ⟨.pub, name⟩

def ctor (name : Name) : Selector := ⟨.ctor, name⟩

def static (name : Name) : Selector := ⟨.static, name⟩

def staticInitializer : Selector := static Name.staticInitializer

def topLevelExports : Selector := static Name.topLevelExports

instance : Ord Selector :=
  ⟨compareLex (compareOn fun s => s.space.rank) (compareOn name)⟩

instance : Std.TransOrd Selector :=
  inferInstanceAs (Std.TransCmp (compareLex (compareOn fun s => s.space.rank) (compareOn name)))

instance : Std.LawfulEqOrd Selector where
  compare_self {a} := compareLex_eq_eq.mpr ⟨Std.ReflOrd.compare_self, Std.ReflOrd.compare_self⟩
  eq_of_compare {a b} same := by
    obtain ⟨ranks, names⟩ := eq_of_compareLex same
    have spaces := Namespace.rank_injective ranks
    cases a
    cases b
    simp_all

end Selector

/-- A member of a program: the unit that declares it, and its selector there. -/
structure MemberRef where
  owner : Name
  selector : Selector
  deriving DecidableEq, Repr, Inhabited

namespace MemberRef

instance : Ord MemberRef := ⟨compareLex (compareOn owner) (compareOn selector)⟩

instance : Std.TransOrd MemberRef :=
  inferInstanceAs (Std.TransCmp (compareLex (compareOn owner) (compareOn selector)))

instance : Std.LawfulEqOrd MemberRef where
  compare_self {a} := compareLex_eq_eq.mpr ⟨Std.ReflOrd.compare_self, Std.ReflOrd.compare_self⟩
  eq_of_compare {a b} same := by
    obtain ⟨owners, selectors⟩ := eq_of_compareLex same
    cases a
    cases b
    simp_all

end MemberRef

/-- A record of a program: the unit that holds it, and its position there. -/
structure Slot where
  owner : Name
  position : Nat
  deriving DecidableEq, Repr, Inhabited

namespace Slot

instance : Ord Slot := ⟨compareLex (compareOn owner) (compareOn position)⟩

instance : Std.TransOrd Slot :=
  inferInstanceAs (Std.TransCmp (compareLex (compareOn owner) (compareOn position)))

instance : Std.LawfulEqOrd Slot where
  compare_self {a} := compareLex_eq_eq.mpr ⟨Std.ReflOrd.compare_self, Std.ReflOrd.compare_self⟩
  eq_of_compare {a b} same := by
    obtain ⟨owners, positions⟩ := eq_of_compareLex same
    cases a
    cases b
    simp_all

end Slot

end TreeShake
