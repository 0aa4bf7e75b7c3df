import TreeShake.Proofs.Ancestry
import TreeShake.Proofs.Growth

set_option autoImplicit false

/-!
The queue of the analysis. A member is pending exactly as long as it waits in the queue, where it
stands once and has a body. A member enters the queue only when it was not seen before, so the
members that are not seen yet and those that wait become fewer with each step, and at the end of a
run the queue is empty.
-/

namespace TreeShake

namespace Program

variable (p : Program)

/-- The members that have a body. -/
def bodies : List Slot :=
  p.units.flatMap fun u =>
    (u.members.zipIdx.filter fun entry => !entry.1.isAbstract).map fun entry => ⟨u.name, entry.2⟩

theorem length_bodies : p.bodies.length = p.bodyCount := by
  unfold bodies bodyCount
  induction p.units with
  | nil => rfl
  | cons u rest ih =>
    have counted := List.countP_map (p := fun m : MemberSummary => !m.isAbstract) (f := Prod.fst)
      (l := u.members.zipIdx)
    rw [List.zipIdx_map_fst] at counted
    rw [List.flatMap_cons, List.flatMap_cons, List.length_append, List.countP_append, ih,
      List.length_map, ← List.countP_eq_length_filter, counted]
    rfl

variable {p}

theorem member?_eq_some_iff {m : Slot} {summary : MemberSummary} :
    p.member? m = some summary ↔
      ∃ u, p.find? m.owner = some u ∧ u.members[m.position]? = some summary :=
  Option.bind_eq_some_iff

theorem abstract?_eq_some_iff {m : Slot} {isAbstract : Bool} :
    p.abstract? m = some isAbstract ↔
      ∃ summary, p.member? m = some summary ∧ summary.isAbstract = isAbstract :=
  Option.map_eq_some_iff

theorem mem_bodies {m : Slot} (body : p.abstract? m = some false) : m ∈ p.bodies := by
  obtain ⟨summary, found, concrete⟩ := abstract?_eq_some_iff.mp body
  obtain ⟨u, owner, present⟩ := member?_eq_some_iff.mp found
  obtain ⟨member, named⟩ := p.find?_eq_some_iff.mp owner
  apply List.mem_flatMap.mpr
  refine ⟨u, member, List.mem_map.mpr ⟨(summary, m.position), ?_, ?_⟩⟩
  · exact List.mem_filter.mpr ⟨List.mem_zipIdx_iff_getElem?.mpr present, by simp [concrete]⟩
  · rw [named]

end Program

namespace State

variable {p : Program} {o : Options}

/-- The queue holds the pending members, each once, and they have bodies. -/
structure Worklist (p : Program) (s : State) : Prop where
  pending_iff : ∀ m, s.progress.get m = .pending ↔ m ∈ s.queue
  nodup : s.queue.Nodup
  bodies : ∀ m ∈ s.queue, p.abstract? m = some false

theorem worklist_initial : Worklist p {} where
  pending_iff m := by simp
  nodup := List.nodup_nil
  bodies m member := absurd member List.not_mem_nil

theorem Worklist.enqueue {s : State} (valid : Worklist p s) (m : Slot) :
    Worklist p (s.enqueue p m) := by
  unfold State.enqueue
  split
  · next unseen =>
    have fresh : m ∉ s.queue := fun member => by
      simp [(valid.pending_iff m).mpr member] at unseen
    split
    · exact valid
    · refine ⟨fun other => ?_, valid.nodup, valid.bodies⟩
      simp only [TotalMap.get_set]
      split
      · next same => simpa [← same] using fresh
      · exact valid.pending_iff other
    · next body =>
      refine ⟨fun other => ?_, ?_, fun other member => ?_⟩
      · simp only [TotalMap.get_set, List.mem_append, List.mem_singleton]
        split
        · next same => simp [same]
        · next different => simp [valid.pending_iff, Ne.symm different]
      · rw [List.nodup_append]
        refine ⟨valid.nodup, by simp, ?_⟩
        intro other member last added same
        exact fresh (List.mem_singleton.mp added ▸ same ▸ member)
      · rcases List.mem_append.mp member with member | member
        · exact valid.bodies other member
        · rw [List.mem_singleton.mp member]
          exact body
  · exact valid

theorem Worklist.evolves {s t : State} (valid : Worklist p s) (evolves : Evolves p o s t) :
    Worklist p t := by
  induction evolves with
  | refl => exact valid
  | tail _ change ih =>
    cases change with
    | spread spread =>
      cases spread with
      | mark | report | ask => exact ⟨ih.pending_iff, ih.nodup, ih.bodies⟩
      | enqueue m => exact ih.enqueue m
    | logCall | addSubclass | accessField | useGlobal =>
      exact ⟨ih.pending_iff, ih.nodup, ih.bodies⟩

/-- The state after the first member was taken from the queue. -/
def pop (m : Slot) (rest : List Slot) (s : State) : State :=
  { s with progress := s.progress.set m .reached, queue := rest }

theorem Worklist.pop {s : State} {m : Slot} {rest : List Slot} (valid : Worklist p s)
    (front : s.queue = m :: rest) : Worklist p (s.pop m rest) := by
  obtain ⟨pending, nodup, bodies⟩ := valid
  rw [front] at pending nodup bodies
  obtain ⟨fresh, nodup⟩ := List.nodup_cons.mp nodup
  refine ⟨fun other => ?_, nodup, fun other member => bodies other (List.mem_cons_of_mem _ member)⟩
  simp only [State.pop, TotalMap.get_set]
  split
  · next same => simpa [← same] using fresh
  · next different => simp [pending, Ne.symm different]

/-- One step of a run: nothing to do, or the first member of the queue is expanded. -/
theorem step_cases (s : State) :
    s.queue = [] ∧ s.step p o = s ∨
      ∃ m rest, s.queue = m :: rest ∧
        s.step p o = (s.pop m rest).expand p o (p.dependencies m) (.member (p.ref m)) := by
  unfold step
  cases s.queue with
  | nil => exact .inl ⟨rfl, rfl⟩
  | cons m rest => exact .inr ⟨m, rest, rfl, rfl⟩

theorem Worklist.step {s : State} (valid : Worklist p s) : Worklist p (s.step p o) := by
  rcases s.step_cases with ⟨_, same⟩ | ⟨m, rest, front, same⟩
  · rwa [same]
  · rw [same]
    exact (valid.pop front).evolves (evolves_expand ..)

/-- What survives each step survives a sequence of steps. -/
theorem steps_induction {holds : State → Prop} (step : ∀ s, holds s → holds (s.step p o))
    {s : State} (count : Nat) (initial : holds s) : holds (s.steps p o count) := by
  induction count generalizing s with
  | zero => exact initial
  | succ count ih => exact ih (step s initial)

/-- What holds at the start and survives each seed and each step holds at the end of a run. -/
theorem run_induction {holds : State → Prop} (roots : RootSet) (initial : holds {})
    (plant : ∀ seed s, holds s → holds (s.plant p o seed))
    (step : ∀ s, holds s → holds (s.step p o)) : holds (run p o roots) := by
  have seeded : holds (seeded p o roots) := by
    unfold State.seeded
    generalize ({} : State) = s at initial ⊢
    induction p.seeds roots generalizing s with
    | nil => exact initial
    | cons seed rest ih => exact ih _ (plant seed s initial)
  exact steps_induction step _ seeded

theorem worklist_seeded (roots : RootSet) : Worklist p (seeded p o roots) :=
  worklist_initial.evolves (foldl_star (fun _ _ _ => evolves_plant ..) _)

theorem worklist_run (roots : RootSet) : Worklist p (run p o roots) :=
  run_induction roots worklist_initial
    (fun _ _ valid => valid.evolves (evolves_plant ..)) (fun _ valid => valid.step)

variable (p) in
/-- How many bodies are not seen yet or wait in the queue. -/
def backlog (s : State) : Nat :=
  p.bodies.countP (fun m => s.progress.get m = .unseen) + s.queue.length

theorem backlog_enqueue (s : State) (m : Slot) : backlog p (s.enqueue p m) ≤ backlog p s := by
  unfold enqueue
  split
  · next unseen =>
    have kept : ∀ progress ≠ Progress.unseen, ∀ other ∈ p.bodies,
        decide ((s.progress.set m progress).get other = .unseen) = true →
          decide (s.progress.get other = .unseen) = true := by
      intro progress moved other _ still
      rw [TotalMap.get_set] at still
      split at still
      · exact absurd (of_decide_eq_true still) moved
      · exact still
    split
    · exact Nat.le_refl _
    · exact Nat.add_le_add_right (List.countP_mono_left (kept .reached nofun)) _
    · next body =>
      have fewer : p.bodies.countP (fun other =>
            decide ((s.progress.set m .pending).get other = .unseen)) <
          p.bodies.countP (fun other => decide (s.progress.get other = .unseen)) :=
        countP_lt_countP (kept .pending nofun) (Program.mem_bodies body)
          (by simp [TotalMap.get_set]) (by simp [unseen])
      simp only [backlog, List.length_append, List.length_singleton]
      omega
  · exact Nat.le_refl _

theorem Evolves.backlog_le {s t : State} (evolves : Evolves p o s t) :
    backlog p t ≤ backlog p s := by
  induction evolves with
  | refl => exact Nat.le_refl _
  | tail _ change ih =>
    refine Nat.le_trans ?_ ih
    cases change with
    | spread spread =>
      cases spread with
      | mark | report | ask => exact Nat.le_refl _
      | enqueue m => exact backlog_enqueue _ m
    | logCall | addSubclass | accessField | useGlobal => exact Nat.le_refl _

theorem backlog_pop {s : State} {m : Slot} {rest : List Slot}
    (front : s.queue = m :: rest) : backlog p (s.pop m rest) < backlog p s := by
  have kept : p.bodies.countP (fun other =>
        decide ((s.progress.set m .reached).get other = .unseen)) ≤
      p.bodies.countP (fun other => decide (s.progress.get other = .unseen)) := by
    apply List.countP_mono_left
    intro other _ still
    rw [TotalMap.get_set] at still
    split at still
    · simp at still
    · exact still
  unfold backlog
  rw [front, List.length_cons]
  exact Nat.lt_succ_of_le (Nat.add_le_add_right kept rest.length)

theorem backlog_step {s : State} (busy : s.queue ≠ []) : backlog p (s.step p o) < backlog p s := by
  rcases s.step_cases with ⟨idle, _⟩ | ⟨m, rest, front, same⟩
  · exact absurd idle busy
  · rw [same]
    exact Nat.lt_of_le_of_lt (evolves_expand ..).backlog_le (backlog_pop front)

theorem steps_idle {s : State} (idle : s.queue = []) (count : Nat) : s.steps p o count = s := by
  have same : s.step p o = s := by
    rcases s.step_cases with ⟨_, same⟩ | ⟨m, rest, front, _⟩
    · exact same
    · simp [idle] at front
  induction count with
  | zero => rfl
  | succ count ih => rw [steps, same, ih]

theorem queue_steps {s : State} {count : Nat} (room : backlog p s ≤ count) :
    (s.steps p o count).queue = [] := by
  induction count generalizing s with
  | zero =>
    have none : s.queue.length ≤ 0 := Nat.le_trans (Nat.le_add_left ..) room
    exact List.eq_nil_of_length_eq_zero (Nat.le_zero.mp none)
  | succ count ih =>
    by_cases idle : s.queue = []
    · rw [steps_idle idle]
      exact idle
    · have fewer := backlog_step (p := p) (o := o) idle
      exact ih (by omega)

/-- A run ends because nothing is left to do. -/
theorem queue_run (roots : RootSet) : (run p o roots).queue = [] := by
  apply queue_steps
  have planted : Evolves p o {} (seeded p o roots) := foldl_star (fun _ _ _ => evolves_plant ..) _
  have initial : backlog p {} ≤ p.bodyCount := by
    rw [← p.length_bodies]
    exact List.countP_le_length
  exact Nat.le_trans planted.backlog_le initial

theorem not_pending_run (roots : RootSet) (m : Slot) :
    (run p o roots).progress.get m ≠ .pending := by
  intro pending
  have waits := ((worklist_run (o := o) roots).pending_iff m).mp pending
  simp [queue_run] at waits

end State

end TreeShake
