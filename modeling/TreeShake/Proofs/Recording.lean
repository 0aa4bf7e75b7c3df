import TreeShake.Dependencies.Recording
import TreeShake.Proofs.Contributions

set_option autoImplicit false

/-!
A record says what was recorded and nothing else. The order of the steps and their repetition leave
no trace in it, and neither does the form of a record that a step takes over: two sequences of steps
give the same record exactly if they record the same edges.
-/

namespace TreeShake

/-- The edges that a step records. -/
inductive Recording.Records : Recording → Edge → Prop
  | edge {edge} : Records (.edge edge) edge
  | construction {cls ctor edge} : Edge.Constructs cls ctor edge →
      Records (.construction cls ctor) edge
  | arithmeticException {edge} :
      Edge.Constructs Name.arithmeticException Name.messageConstructor edge →
      Records .arithmeticException edge
  | all {d edge} : edge ∈ d → Records (.all d) edge

/-- The edges that a sequence of steps records. -/
def Recorded (steps : List Recording) (edge : Edge) : Prop :=
  ∃ step ∈ steps, step.Records edge

theorem Recording.mem_edges {step : Recording} {edge : Edge} :
    edge ∈ step.edges ↔ step.Records edge := by
  cases step with
  | edge recorded =>
    simp only [edges, List.mem_singleton]
    constructor
    · rintro rfl
      exact .edge
    · rintro ⟨⟩
      rfl
  | construction cls ctor =>
    rw [edges, Edge.mem_construction]
    constructor
    · exact .construction
    · intro records
      cases records with
      | construction constructs => exact constructs
  | arithmeticException =>
    rw [edges, Edge.arithmeticException, Edge.mem_construction]
    constructor
    · exact .arithmeticException
    · intro records
      cases records with
      | arithmeticException constructs => exact constructs
  | all d =>
    rw [edges, Dependencies.mem_edges]
    constructor
    · exact .all
    · intro records
      cases records with
      | all held => exact held

theorem recorded_cons {step : Recording} {steps : List Recording} {edge : Edge} :
    Recorded (step :: steps) edge ↔ step.Records edge ∨ Recorded steps edge := by
  simp [Recorded]

namespace Dependencies

theorem mem_record {d : Dependencies} {step : Recording} {edge : Edge} :
    edge ∈ d.record step ↔ edge ∈ d ∨ step.Records edge := by
  rw [record, mem_insertAll, Recording.mem_edges]

theorem mem_foldl_record {d : Dependencies} {steps : List Recording} {edge : Edge} :
    edge ∈ steps.foldl record d ↔ edge ∈ d ∨ Recorded steps edge := by
  induction steps generalizing d with
  | nil => simp [Recorded]
  | cons step rest ih => rw [List.foldl_cons, ih, mem_record, recorded_cons, or_assoc]

theorem mem_ofRecordings {steps : List Recording} {edge : Edge} :
    edge ∈ ofRecordings steps ↔ Recorded steps edge := by
  rw [ofRecordings, mem_foldl_record]
  simp

theorem Canonical.foldl_record {d : Dependencies} (canonical : d.Canonical)
    (steps : List Recording) : (steps.foldl record d).Canonical := by
  induction steps generalizing d with
  | nil => exact canonical
  | cons step rest ih => exact ih (canonical.insertAll step.edges)

theorem canonical_ofRecordings (steps : List Recording) : (ofRecordings steps).Canonical :=
  canonical_empty.foldl_record steps

theorem isEmpty_iff {d : Dependencies} : d.isEmpty = true ↔ d = {} := by
  cases d
  simp [isEmpty, and_assoc]

/-- A canonical record with no edges has no groups either. -/
theorem Canonical.isEmpty_iff {d : Dependencies} (canonical : d.Canonical) :
    d.isEmpty = true ↔ ∀ edge, edge ∉ d := by
  rw [Dependencies.isEmpty_iff]
  constructor
  · rintro rfl edge
    exact mem_empty
  · intro none
    apply canonical.eq_of_mem_iff canonical_empty
    intro edge
    simp [none edge]

/-- A record is canonical, it holds what the steps record, it depends on nothing else, and it is
empty exactly if nothing was recorded. -/
theorem ofRecordings_eq_iff (first second : List Recording) :
    (ofRecordings first = ofRecordings second ↔
      ∀ edge, Recorded first edge ↔ Recorded second edge) ∧
    (ofRecordings first).Canonical ∧
    (∀ edge, edge ∈ ofRecordings first ↔ Recorded first edge) ∧
    ((ofRecordings first).isEmpty = true ↔ ∀ edge, ¬ Recorded first edge) := by
  have canonical := canonical_ofRecordings first
  refine ⟨⟨?_, ?_⟩, canonical, fun _ => mem_ofRecordings, ?_⟩
  · intro same edge
    rw [← mem_ofRecordings, same, mem_ofRecordings]
  · intro same
    apply canonical.eq_of_mem_iff (canonical_ofRecordings second)
    intro edge
    rw [mem_ofRecordings, mem_ofRecordings, same]
  · simp only [canonical.isEmpty_iff, mem_ofRecordings]

end Dependencies

end TreeShake
