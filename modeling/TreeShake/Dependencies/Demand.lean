import TreeShake.Dependencies.Basic

set_option autoImplicit false

/-!
What a live record demands of a program, in the order in which the demands are met: its edges, and
before those of a group the unit that the group belongs to. So a group demands its unit even if it
is empty.
-/

namespace TreeShake

inductive Demand where
  /-- The unit has to exist. -/
  | unit (name : Name)
  /-- The unit has to be initialized. -/
  | code (name : Name)
  | edge (edge : Edge)
  deriving DecidableEq, Repr

namespace Dependencies

def groupDemands {β : Type} (head : Name → Demand) (edge : Name → β → Edge) (groups : Groups β) :
    List Demand :=
  groups.flatMap fun group => head group.1 :: group.2.map fun value => .edge (edge group.1 value)

def demands (d : Dependencies) : List Demand :=
  groupDemands .code .readField d.reads ++
  groupDemands .code .writeField d.writes ++
  groupDemands .unit .call d.calls ++
  groupDemands .unit .callExact d.exactCalls ++
  d.instantiated.map (fun cls => .edge (.instantiate cls)) ++
  d.modules.map (fun cls => .edge (.loadModule cls)) ++
  d.tested.map (fun cls => .edge (.testInstance cls)) ++
  d.classData.map (fun cls => .edge (.classData cls)) ++
  d.mentioned.map (fun cls => .edge (.mention cls)) ++
  d.hostGlobals.map (fun name => .edge (.hostGlobal name))

theorem edge_mem_groupDemands {β : Type} {head : Name → Demand} {edge : Name → β → Edge}
    (heads : ∀ name other, head name ≠ .edge other) {groups : Groups β} {wanted : Edge} :
    .edge wanted ∈ groupDemands head edge groups ↔
      ∃ pair ∈ Groups.pairs groups, edge pair.1 pair.2 = wanted := by
  induction groups with
  | nil => simp [groupDemands, Groups.pairs]
  | cons group rest ih =>
    rw [groupDemands, List.flatMap_cons, ← groupDemands, List.mem_append, ih, List.mem_cons]
    constructor
    · rintro ((same | inside) | ⟨pair, later, same⟩)
      · exact absurd same.symm (heads _ _)
      · obtain ⟨value, inside, same⟩ := List.mem_map.mp inside
        exact ⟨(group.1, value), Groups.mem_pairs_cons.mpr (.inl ⟨rfl, inside⟩),
          Demand.edge.inj same⟩
      · exact ⟨pair, Groups.mem_pairs_cons.mpr (.inr later), same⟩
    · rintro ⟨pair, member, same⟩
      rcases Groups.mem_pairs_cons.mp member with ⟨owner, inside⟩ | later
      · exact .inl (.inr (List.mem_map.mpr ⟨pair.2, inside, by rw [← owner, same]⟩))
      · exact .inr ⟨pair, later, same⟩

/-- The edges among the demands of a record are its edges. -/
theorem edge_mem_demands {d : Dependencies} {wanted : Edge} :
    .edge wanted ∈ d.demands ↔ wanted ∈ d := by
  cases wanted <;> simp [demands, Dependencies.mem_def, Holds, edge_mem_groupDemands]

end Dependencies

end TreeShake
