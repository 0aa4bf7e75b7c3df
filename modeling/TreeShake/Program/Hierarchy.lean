import Std.Data.TreeMap
import TreeShake.Unit.Summary

set_option autoImplicit false

/-!
The class hierarchy of a program, seen through the units that it can find. A unit may name parents
that are missing, and the parents of a unit may lead back to it: the searches below go through the
units that are present, for as many rounds as there are units.
-/

namespace TreeShake.Hierarchy

variable (find? : Name → Option UnitSummary)

/-- The parents that a unit declares, present or not. -/
def declared (name : Name) : List Name := ((find? name).map UnitSummary.parents).getD []

def parents (name : Name) : List Name :=
  (declared find? name).filter fun parent => (find? parent).isSome

/-- Goes on upwards from the pending units, depth first, after those found already. -/
def ascend : Nat → List Name → List Name → List Name
  | 0, found, _ => found
  | rounds + 1, found, pending =>
    match pending.dropWhile fun name => found.contains name with
    | [] => found
    | name :: rest => ascend rounds (found ++ [name]) (parents find? name ++ rest)

/-- The unit itself, then all units above it: the superclass and what is above that before the
interfaces. Each round finds one more unit. -/
def ancestors (size : Nat) (name : Name) : List Name :=
  ascend find? size [] [name]

/-- The ancestors of a unit and all that are known after that. They are computed when they are asked
for first, and kept. -/
def remember (size : Nat) (known : Std.TreeMap Name (List Name)) (name : Name) :
    List Name × Std.TreeMap Name (List Name) :=
  match known[name]? with
  | some lineage => (lineage, known)
  | none =>
    let lineage := ancestors find? size name
    (lineage, known.insert name lineage)

/-- What is known is what would be computed. -/
def Fresh (size : Nat) (known : Std.TreeMap Name (List Name)) : Prop :=
  ∀ name lineage, known[name]? = some lineage → lineage = ancestors find? size name

variable {find?} {size : Nat} {known : Std.TreeMap Name (List Name)}

theorem fresh_empty : Fresh find? size ∅ := by
  intro name lineage stored
  rw [Std.TreeMap.getElem?_emptyc] at stored
  cases stored

theorem Fresh.remember_fst (fresh : Fresh find? size known) (name : Name) :
    (remember find? size known name).1 = ancestors find? size name := by
  unfold remember
  split
  · next lineage stored => exact fresh name lineage stored
  · rfl

theorem Fresh.remember_snd (fresh : Fresh find? size known) (asked : Name) :
    Fresh find? size (remember find? size known asked).2 := by
  intro name lineage stored
  unfold remember at stored
  split at stored
  · exact fresh name lineage stored
  · rw [Std.TreeMap.getElem?_insert] at stored
    split at stored
    · next same =>
      rw [← Std.LawfulEqOrd.eq_of_compare same]
      exact (Option.some.inj stored).symm
    · exact fresh name lineage stored

variable (find?)

def chain : Nat → Option Name → List UnitSummary
  | 0, _ => []
  | rounds + 1, name =>
    match name.bind find? with
    | none => []
    | some u => u :: chain rounds u.superclass

/-- The unit and its superclasses, the nearest first. On a cyclic hierarchy the list goes around the
cycle. -/
def superclasses (size : Nat) (name : Name) : List UnitSummary :=
  chain find? size (some name)

end TreeShake.Hierarchy
