set_option autoImplicit false

/-!
Names of units, members, fields and host globals. A name is the index of its text in the table of
names, and names are ordered by index: their texts play no part in any order.
-/

namespace TreeShake

structure Name where
  index : Nat
  deriving DecidableEq, Repr, Inhabited

namespace Name

instance : Ord Name := ⟨compareOn index⟩

instance : Std.TransOrd Name := inferInstanceAs (Std.TransCmp (compareOn index))

instance : Std.LawfulEqOrd Name where
  compare_self {a} := Nat.compare_eq_eq.mpr (Eq.refl a.index)
  eq_of_compare {a b} same := by
    cases a
    cases b
    exact congrArg mk (Nat.compare_eq_eq.mp same)

/-- The name as diagnostics about definitions show it. -/
def describe (n : Name) : String :=
  "Name(" ++ toString n.index ++ ")"

end Name

end TreeShake
