import TreeShake.Proofs.Extension

set_option autoImplicit false

/-!
What is live, and what is wrong, depends only on the units that a program finds by their names, on
their number, and on the set of roots. The order of the units and of the roots does not matter.
-/

namespace TreeShake

/-- Both programs have the same units. -/
structure Program.Agree (p q : Program) : Prop where
  find? : p.find? = q.find?
  size : p.size = q.size

/-- Both configurations have the same options and the same set of roots. -/
structure Config.Agree (c d : Config) : Prop where
  options : c.toOptions = d.toOptions
  roots : ∀ root, root ∈ c.roots.toList ↔ root ∈ d.roots.toList

theorem Config.Agree.symm {c d : Config} (agree : Config.Agree c d) : Config.Agree d c :=
  ⟨agree.options.symm, fun root => (agree.roots root).symm⟩

namespace Program.Agree

variable {p q : Program} (agree : Agree p q)
include agree

theorem symm : Agree q p := ⟨agree.find?.symm, agree.size.symm⟩

theorem sameShape : p.SameShape q where
  find? name := by rw [agree.find?]
  size := agree.size

variable {c d : Config} (configs : Config.Agree c d)
include configs

/-- Of programs that agree each one is below the other. -/
theorem below : p.Below c q d where
  shape := agree.sameShape
  fieldClasses name := by
    rw [fieldClasses, agree.find?]
    exact List.Subset.refl _
  reporting := by
    rw [configs.options]
    exact id
  contracts := by
    rw [configs.options]
    exact id
  roots root member := (configs.roots root).mp member
  demands m := by
    rw [dependencies, member?, agree.find?]
    exact List.Subset.refl _
  exported name u found exported := ⟨u, agree.find? ▸ found, exported⟩
  offered name := by
    rw [exports, agree.find?]
    exact List.Subset.refl _

/-- The same facts are live in both programs. -/
theorem live_iff {fact : Fact Slot} : p.Live c fact ↔ q.Live d fact :=
  ⟨(agree.below configs).live, (agree.symm.below configs.symm).live⟩

/-- The same defects show, with the same referrers. -/
theorem refers_iff {defect : Defect} {referrer : Referrer} :
    p.Refers c (p.Live c) defect referrer ↔ q.Refers d (q.Live d) defect referrer :=
  ⟨(agree.below configs).refers, (agree.symm.below configs.symm).refers⟩

end Program.Agree

namespace UnitSummary

theorem firsts_eq_self {units : List UnitSummary} (distinct : (units.map name).Nodup) :
    firsts units = units := by
  induction units with
  | nil => rfl
  | cons u rest ih =>
    obtain ⟨fresh, distinct⟩ := List.nodup_cons.mp distinct
    rw [firsts, ih distinct, List.filter_eq_self.mpr]
    intro later member
    apply decide_eq_true
    exact fun same => fresh (same ▸ List.mem_map_of_mem member)

end UnitSummary

/-- Programs of the same units in another order agree. -/
theorem Program.agree_ofUnits {first second : List UnitSummary}
    (distinct : (first.map UnitSummary.name).Nodup) (permuted : first.Perm second) :
    (ofUnits first).Agree (ofUnits second) := by
  have left : (ofUnits first).units = first := UnitSummary.firsts_eq_self distinct
  have right : (ofUnits second).units = second :=
    UnitSummary.firsts_eq_self ((permuted.map UnitSummary.name).nodup_iff.mp distinct)
  constructor
  · funext name
    apply Option.ext
    intro u
    rw [find?_eq_some_iff, find?_eq_some_iff, left, right, permuted.mem_iff]
  · rw [size, size, left, right, permuted.length_eq]

namespace RootSet

theorem mem_push {set : RootSet} {root other : Root} :
    other ∈ (set.push root).toList ↔ other ∈ set.toList ∨ other = root := by
  unfold push
  split
  · next present =>
    constructor
    · exact .inl
    · rintro (member | rfl)
      · exact member
      · exact present
  · simp

theorem mem_ofList {roots : List Root} {root : Root} :
    root ∈ (ofList roots).toList ↔ root ∈ roots := by
  suffices general : ∀ set : RootSet,
      root ∈ (roots.foldl push set).toList ↔ root ∈ set.toList ∨ root ∈ roots by
    exact (general ∅).trans (or_iff_right List.not_mem_nil)
  induction roots with
  | nil => simp
  | cons first rest ih =>
    intro set
    rw [List.foldl_cons, ih, mem_push, List.mem_cons, or_assoc]

end RootSet

end TreeShake
