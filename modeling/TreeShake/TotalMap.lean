import Std.Data.TreeMap

set_option autoImplicit false

/-!
Maps with a value at every key: a fallback everywhere, changed at finitely many keys.
-/

namespace TreeShake

universe u v

/-- A map that holds `fallback` except where it was set. -/
structure TotalMap (κ : Type u) (β : Type v) [Ord κ] (fallback : β) where
  entries : Std.TreeMap κ β := ∅

namespace TotalMap

variable {κ : Type u} {β : Type v} [Ord κ] {fallback : β}

instance : EmptyCollection (TotalMap κ β fallback) := ⟨{}⟩

instance : Inhabited (TotalMap κ β fallback) := ⟨∅⟩

def get (m : TotalMap κ β fallback) (k : κ) : β :=
  m.entries.getD k fallback

def set (m : TotalMap κ β fallback) (k : κ) (value : β) : TotalMap κ β fallback :=
  ⟨m.entries.insert k value⟩

def modify (m : TotalMap κ β fallback) (k : κ) (change : β → β) : TotalMap κ β fallback :=
  m.set k (change (m.get k))

@[simp] theorem get_empty [Std.TransOrd κ] (k : κ) : (∅ : TotalMap κ β fallback).get k = fallback :=
  Std.TreeMap.getD_emptyc

theorem get_set [Std.TransOrd κ] [Std.LawfulEqOrd κ] [DecidableEq κ] (m : TotalMap κ β fallback)
    (k l : κ) (value : β) : (m.set k value).get l = if k = l then value else m.get l := by
  simp [get, set, Std.TreeMap.getD_insert]

theorem get_modify [Std.TransOrd κ] [Std.LawfulEqOrd κ] [DecidableEq κ]
    (m : TotalMap κ β fallback) (k l : κ) (change : β → β) :
    (m.modify k change).get l = if k = l then change (m.get l) else m.get l := by
  rw [modify, get_set]
  split
  · next same => rw [same]
  · rfl

end TotalMap

end TreeShake
