import TreeShake.Ascending
import TreeShake.Dependencies.Edge

set_option autoImplicit false

/-!
Dependency records: the edges of a piece of code, one list for each kind of edge. Edges inside a
unit are grouped by the unit. A record that was built edge by edge is canonical: its lists are
strictly ascending, and no group is empty. A record that was handed in may be in any order, repeat
itself and hold empty groups.
-/

namespace TreeShake

/-- Values grouped by the unit that they belong to. -/
abbrev Groups (β : Type) := List (Name × List β)

namespace Groups

variable {β : Type} [Ord β]

def insert (owner : Name) (value : β) (groups : Groups β) : Groups β :=
  Ascending.upsert Prod.fst (fun old new => (old.1, Ascending.insertAll old.2 new.2))
    (owner, [value]) groups

def pairs {β : Type} (groups : Groups β) : List (Name × β) :=
  groups.flatMap fun group => group.2.map fun value => (group.1, value)

theorem mem_pairs_cons {β : Type} {group : Name × List β} {groups : Groups β} {pair : Name × β} :
    pair ∈ pairs (group :: groups) ↔
      pair.1 = group.1 ∧ pair.2 ∈ group.2 ∨ pair ∈ pairs groups := by
  rw [pairs, List.flatMap_cons, List.mem_append, List.mem_map]
  constructor
  · rintro (⟨value, inside, rfl⟩ | later)
    · exact .inl ⟨rfl, inside⟩
    · exact .inr later
  · rintro (⟨owner, inside⟩ | later)
    · exact .inl ⟨pair.2, inside, by rw [← owner]⟩
    · exact .inr later

@[simp] theorem mem_pairs_insert [Std.LawfulEqOrd β] {owner : Name} {value : β} {groups : Groups β}
    {pair : Name × β} :
    pair ∈ pairs (insert owner value groups) ↔
      pair.1 = owner ∧ pair.2 = value ∨ pair ∈ pairs groups := by
  induction groups with
  | nil => simp [insert, mem_pairs_cons]
  | cons old rest ih =>
    rw [insert, Ascending.upsert]
    split
    · simp [mem_pairs_cons]
    · next same =>
      have same : owner = old.1 := Std.LawfulEqOrd.eq_of_compare same
      simp only [mem_pairs_cons, Ascending.mem_insertAll, List.mem_singleton, same, and_or_left]
      rw [or_assoc]
      exact or_left_comm
    · rw [mem_pairs_cons, mem_pairs_cons, ← insert, ih]
      exact or_left_comm

end Groups

structure Dependencies where
  reads : Groups Name := []
  writes : Groups Name := []
  calls : Groups Name := []
  exactCalls : Groups Selector := []
  instantiated : List Name := []
  modules : List Name := []
  tested : List Name := []
  classData : List Name := []
  mentioned : List Name := []
  hostGlobals : List Name := []
  deriving DecidableEq, Repr, Inhabited

namespace Dependencies

def insert (d : Dependencies) : Edge → Dependencies
  | .readField owner field => { d with reads := Groups.insert owner field d.reads }
  | .writeField owner field => { d with writes := Groups.insert owner field d.writes }
  | .call receiver method => { d with calls := Groups.insert receiver method d.calls }
  | .callExact owner target => { d with exactCalls := Groups.insert owner target d.exactCalls }
  | .instantiate cls => { d with instantiated := Ascending.insert cls d.instantiated }
  | .loadModule cls => { d with modules := Ascending.insert cls d.modules }
  | .testInstance cls => { d with tested := Ascending.insert cls d.tested }
  | .classData cls => { d with classData := Ascending.insert cls d.classData }
  | .mention cls => { d with mentioned := Ascending.insert cls d.mentioned }
  | .hostGlobal name => { d with hostGlobals := Ascending.insert name d.hostGlobals }

def insertAll (d : Dependencies) (edges : List Edge) : Dependencies :=
  edges.foldl insert d

def ofEdges (edges : List Edge) : Dependencies := insertAll {} edges

/-- The edges that a record holds. An empty group holds none. -/
def edges (d : Dependencies) : List Edge :=
  (Groups.pairs d.reads).map (fun pair => .readField pair.1 pair.2) ++
  (Groups.pairs d.writes).map (fun pair => .writeField pair.1 pair.2) ++
  (Groups.pairs d.calls).map (fun pair => .call pair.1 pair.2) ++
  (Groups.pairs d.exactCalls).map (fun pair => .callExact pair.1 pair.2) ++
  d.instantiated.map .instantiate ++
  d.modules.map .loadModule ++
  d.tested.map .testInstance ++
  d.classData.map .classData ++
  d.mentioned.map .mention ++
  d.hostGlobals.map .hostGlobal

/-- The canonical record of the edges of both. -/
def union (first second : Dependencies) : Dependencies :=
  ofEdges (first.edges ++ second.edges)

def isEmpty (d : Dependencies) : Bool :=
  d.reads.isEmpty && d.writes.isEmpty && d.calls.isEmpty && d.exactCalls.isEmpty &&
    d.instantiated.isEmpty && d.modules.isEmpty && d.tested.isEmpty && d.classData.isEmpty &&
    d.mentioned.isEmpty && d.hostGlobals.isEmpty

/-- Where a record holds an edge. -/
def Holds (d : Dependencies) : Edge → Prop
  | .readField owner field => (owner, field) ∈ Groups.pairs d.reads
  | .writeField owner field => (owner, field) ∈ Groups.pairs d.writes
  | .call receiver method => (receiver, method) ∈ Groups.pairs d.calls
  | .callExact owner target => (owner, target) ∈ Groups.pairs d.exactCalls
  | .instantiate cls => cls ∈ d.instantiated
  | .loadModule cls => cls ∈ d.modules
  | .testInstance cls => cls ∈ d.tested
  | .classData cls => cls ∈ d.classData
  | .mention cls => cls ∈ d.mentioned
  | .hostGlobal name => name ∈ d.hostGlobals

instance : Membership Edge Dependencies := ⟨Holds⟩

theorem mem_def {d : Dependencies} {edge : Edge} : edge ∈ d ↔ d.Holds edge := Iff.rfl

@[simp] theorem mem_edges {d : Dependencies} {edge : Edge} : edge ∈ d.edges ↔ edge ∈ d := by
  cases edge <;> simp [edges, mem_def, Holds]

@[simp] theorem mem_empty {edge : Edge} : edge ∉ ({} : Dependencies) := by
  cases edge <;> exact List.not_mem_nil

@[simp] theorem mem_insert {d : Dependencies} {edge added : Edge} :
    edge ∈ d.insert added ↔ edge = added ∨ edge ∈ d := by
  cases added <;> cases edge <;> simp [mem_def, Holds, insert]

@[simp] theorem mem_insertAll {d : Dependencies} {edge : Edge} {added : List Edge} :
    edge ∈ d.insertAll added ↔ edge ∈ d ∨ edge ∈ added := by
  induction added generalizing d with
  | nil => simp [insertAll]
  | cons first rest ih =>
    rw [insertAll, List.foldl_cons, ← insertAll, ih, mem_insert, List.mem_cons, or_assoc]
    exact or_left_comm

@[simp] theorem mem_ofEdges {edge : Edge} {edges : List Edge} :
    edge ∈ ofEdges edges ↔ edge ∈ edges := by
  simp [ofEdges]

@[simp] theorem mem_union {first second : Dependencies} {edge : Edge} :
    edge ∈ first.union second ↔ edge ∈ first ∨ edge ∈ second := by
  simp [union]

end Dependencies

end TreeShake
