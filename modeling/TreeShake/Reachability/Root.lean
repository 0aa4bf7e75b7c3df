import TreeShake.Selector

set_option autoImplicit false

/-!
Where reachability starts, and how it treats what is missing.
-/

namespace TreeShake

inductive Root where
  | unit (name : Name)
  | member (m : MemberRef)
  | module (name : Name)
  | instantiate (cls ctor : Name)
  deriving DecidableEq, Repr

/-- Roots without repetition, in the order in which they were added first. -/
structure RootSet where
  toList : List Root := []
  distinct : toList.Nodup := by decide
  deriving DecidableEq, Repr

namespace RootSet

instance : EmptyCollection RootSet := ⟨{}⟩

instance : Inhabited RootSet := ⟨∅⟩

def push (set : RootSet) (root : Root) : RootSet :=
  if present : root ∈ set.toList then set
  else
    { toList := set.toList ++ [root]
      distinct := by
        rw [List.nodup_append]
        refine ⟨set.distinct, by simp, ?_⟩
        intro earlier member last added same
        rw [List.mem_singleton] at added
        exact present (added ▸ same ▸ member) }

def ofList (roots : List Root) : RootSet := roots.foldl push ∅

def size (set : RootSet) : Nat := set.toList.length

def isEmpty (set : RootSet) : Bool := set.toList.isEmpty

end RootSet

inductive MissingPolicy where
  | report
  | ignore
  deriving DecidableEq, Repr, Inhabited

structure Options where
  missing : MissingPolicy := .report
  /-- Keep the abstract declarations that virtual calls go through. -/
  keepContracts : Bool := true
  deriving DecidableEq, Repr, Inhabited

structure Config extends Options where
  roots : RootSet := ∅
  deriving DecidableEq, Repr

/-- After other tools have changed the code, symbols may be gone and contracts do not matter. -/
def Config.refinement : Config where
  missing := .ignore
  keepContracts := false

end TreeShake
