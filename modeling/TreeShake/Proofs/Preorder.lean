import TreeShake.Proofs.Termination

set_option autoImplicit false

/-!
The order of the ancestors, and their computation. A search with a stack may put a unit on it many
times before the unit is found, and a cycle leads back to units that are pending still. It comes to
an end all the same: in each turn a unit is found or the stack gets shorter. What it finds is the
depth-first preorder: a unit, then for each of its parents in turn all that is above the parent and
was not found before.

A run computes the ancestors of a unit when it asks for them first, and keeps them. What it keeps is
at any moment what it would compute again.
-/

namespace TreeShake

namespace Program

variable (p : Program)

/-- A turn of a search with the units found so far and a stack. The unit on top is dropped if it was
found before. Otherwise it is found, and its parents go on the stack, the first one on top. -/
inductive Turn : List Name × List Name → List Name × List Name → Prop
  | skip {found rest : List Name} {name : Name} : name ∈ found →
      Turn (found, name :: rest) (found, rest)
  | find {found rest : List Name} {name : Name} : name ∉ found →
      Turn (found, name :: rest) (found ++ [name], Hierarchy.parents p.find? name ++ rest)

/-- What is found when some units are explored one after the other, depth first and in preorder: each
unit is found before its parents are explored, and they are explored before the next unit is. -/
inductive Explores : List Name → List Name → List Name → Prop
  | done (found : List Name) : Explores found [] found
  | known {found rest last : List Name} {name : Name} : name ∈ found →
      Explores found rest last → Explores found (name :: rest) last
  | fresh {found rest above last : List Name} {name : Name} : name ∉ found →
      Explores (found ++ [name]) (Hierarchy.parents p.find? name) above →
      Explores above rest last → Explores found (name :: rest) last

variable {p} {found names rest last : List Name} {name : Name}

/-! The search comes to an end. -/

theorem parents_eq_nil (absent : p.contains name = false) : Hierarchy.parents p.find? name = [] := by
  apply List.eq_nil_iff_forall_not_mem.mpr
  intro parent member
  have present := p.contains_of_mem_parents (p.mem_parents.mp member).1
  rw [absent] at present
  cases present

theorem unknown_concat_lt (present : p.contains name = true) (fresh : name ∉ found) :
    p.unknown (found ++ [name]).contains < p.unknown found.contains :=
  p.unknown_lt present (by simpa using fresh) (fun _ => by simp_all) (by simp)

theorem unknown_le_of_subset (inside : found ⊆ last) :
    p.unknown last.contains ≤ p.unknown found.contains := by
  apply List.countP_mono_left
  intro u _ unknown
  have unknown : u.name ∉ last := by simpa using unknown
  simpa using fun member => unknown (inside member)

/-- In each turn a unit of the program is found, or the stack gets shorter. -/
theorem Turn.decreases {before after : List Name × List Name} (turn : p.Turn before after) :
    Prod.Lex (· < ·) (· < ·) (p.unknown after.1.contains, after.2.length)
      (p.unknown before.1.contains, before.2.length) := by
  cases turn with
  | skip => exact .right _ (by simp)
  | @find found rest name fresh =>
    cases present : p.contains name with
    | true => exact .left _ _ (unknown_concat_lt present fresh)
    | false =>
      have fewer : p.unknown (found ++ [name]).contains ≤ p.unknown found.contains :=
        unknown_le_of_subset (List.subset_append_left _ _)
      rw [parents_eq_nil present]
      exact .right' _ fewer (by simp)

theorem wellFounded_turn : WellFounded fun after before => p.Turn before after :=
  Subrelation.wf (fun turn => turn.decreases)
    (InvImage.wf (fun search : List Name × List Name =>
      (p.unknown search.1.contains, search.2.length)) (Prod.lex Nat.lt_wfRel Nat.lt_wfRel).wf)

theorem Turn.unique {before first second : List Name × List Name} (turn : p.Turn before first)
    (other : p.Turn before second) : first = second := by
  cases turn with
  | skip member =>
    cases other with
    | skip => rfl
    | find fresh => exact absurd member fresh
  | find fresh =>
    cases other with
    | skip member => exact absurd member fresh
    | find => rfl

/-! Exploring is what the search does. -/

theorem Explores.isPrefix (explores : p.Explores found names last) : found <+: last := by
  induction explores with
  | done found => exact List.prefix_rfl
  | known _ _ ih => exact ih
  | fresh _ _ _ above rest => exact (List.prefix_append _ _).trans (above.trans rest)

theorem Explores.unique (explores : p.Explores found names last) {other : List Name}
    (again : p.Explores found names other) : last = other := by
  induction explores generalizing other with
  | done =>
    cases again
    rfl
  | known member _ ih =>
    cases again with
    | known _ again => exact ih again
    | fresh fresh => exact absurd member fresh
  | fresh fresh _ _ above rest =>
    cases again with
    | known member => exact absurd member fresh
    | fresh _ first second =>
      obtain rfl := above first
      exact rest second

theorem exists_explores (found names : List Name) : ∃ last, p.Explores found names last := by
  match names with
  | [] => exact ⟨found, .done found⟩
  | name :: rest =>
    by_cases member : name ∈ found
    · obtain ⟨last, explores⟩ := exists_explores found rest
      exact ⟨last, .known member explores⟩
    · have climbs : ∃ above,
          p.Explores (found ++ [name]) (Hierarchy.parents p.find? name) above := by
        cases present : p.contains name with
        | true =>
          have fewer := unknown_concat_lt present member
          exact exists_explores _ _
        | false =>
          rw [parents_eq_nil present]
          exact ⟨_, .done _⟩
      obtain ⟨above, climbs⟩ := climbs
      have inside : found ⊆ above := ((List.prefix_append _ _).trans climbs.isPrefix).subset
      have notMore := unknown_le_of_subset (p := p) inside
      obtain ⟨last, explores⟩ := exists_explores above rest
      exact ⟨last, .fresh member climbs explores⟩
termination_by (p.unknown found.contains, names.length)
decreasing_by
  · exact .right _ (Nat.lt_succ_self _)
  · exact .left _ _ fewer
  · exact .right' _ notMore (Nat.lt_succ_self _)

theorem Explores.turns (explores : p.Explores found names last) (rest : List Name) :
    Relation.ReflTransGen p.Turn (found, names ++ rest) (last, rest) := by
  induction explores generalizing rest with
  | done => exact .refl
  | known member _ ih => exact .head (.skip member) (ih rest)
  | @fresh found later above last name fresh _ _ climb go =>
    exact .head (.find fresh) ((climb (later ++ rest)).trans (go rest))

/-! The bounded search. -/

theorem ascend_nil (rounds : Nat) : Hierarchy.ascend p.find? rounds found [] = found := by
  cases rounds <;> rfl

theorem ascend_skip (member : name ∈ found) (rounds : Nat) :
    Hierarchy.ascend p.find? rounds found (name :: rest) =
      Hierarchy.ascend p.find? rounds found rest := by
  cases rounds with
  | zero => rfl
  | succ rounds => rw [Hierarchy.ascend, List.dropWhile_cons_of_pos (by simpa using member),
      Hierarchy.ascend]

theorem ascend_find (fresh : name ∉ found) (rounds : Nat) :
    Hierarchy.ascend p.find? (rounds + 1) found (name :: rest) =
      Hierarchy.ascend p.find? rounds (found ++ [name])
        (Hierarchy.parents p.find? name ++ rest) := by
  rw [Hierarchy.ascend, List.dropWhile_cons_of_neg (by simpa using fresh)]

/-- With a round for each unit that is not found yet, the rounds do not run out. -/
theorem Explores.ascend (explores : p.Explores found names last)
    (present : ∀ n ∈ names, p.contains n = true) {rounds : Nat}
    (room : p.unknown found.contains ≤ rounds) (rest : List Name) :
    ∃ left, p.unknown last.contains ≤ left ∧
      Hierarchy.ascend p.find? rounds found (names ++ rest) =
        Hierarchy.ascend p.find? left last rest := by
  induction explores generalizing rounds rest with
  | done => exact ⟨rounds, room, rfl⟩
  | known member _ ih =>
    obtain ⟨left, enough, same⟩ := ih (fun n h => present n (List.mem_cons_of_mem _ h)) room rest
    exact ⟨left, enough, (ascend_skip member rounds).trans same⟩
  | @fresh found later above last name fresh _ _ climb go =>
    have fewer := unknown_concat_lt (present name List.mem_cons_self) fresh
    obtain ⟨rounds, rfl⟩ : ∃ less, rounds = less + 1 := ⟨rounds - 1, by omega⟩
    obtain ⟨middle, enough, climbed⟩ := climb (fun n h => (p.mem_parents.mp h).2)
      (show _ ≤ rounds by omega) (later ++ rest)
    obtain ⟨left, enough, gone⟩ := go (fun n h => present n (List.mem_cons_of_mem _ h)) enough rest
    refine ⟨left, enough, ?_⟩
    rw [List.cons_append, ascend_find fresh, climbed, gone]

theorem explores_ancestors (present : p.contains name = true) :
    p.Explores [] [name] (p.ancestors name) := by
  obtain ⟨last, explores⟩ := exists_explores (p := p) [] [name]
  obtain ⟨left, _, same⟩ := explores.ascend (by simpa using present) (p.unknown_le_size _) []
  rw [ascend_nil, List.append_nil] at same
  rw [ancestors, Hierarchy.ancestors, same]
  exact explores

theorem explores_iff (present : p.contains name = true) :
    p.Explores [] [name] last ↔ last = p.ancestors name := by
  constructor
  · exact fun explores => explores.unique (explores_ancestors present)
  · rintro rfl
    exact explores_ancestors present

theorem eq_of_turns_nil {after : List Name × List Name}
    (turns : Relation.ReflTransGen p.Turn (found, []) after) : (found, []) = after := by
  rcases turns.cases_head with same | ⟨_, turn, _⟩
  · exact same
  · cases turn

/-- The search without a bound ends with the ancestors. -/
theorem turns_iff (present : p.contains name = true) :
    Relation.ReflTransGen p.Turn ([], [name]) (last, []) ↔ last = p.ancestors name := by
  have ends := (explores_ancestors present).turns []
  have unique : Relator.RightUnique p.Turn := fun _ _ _ => Turn.unique
  constructor
  · intro turns
    rcases Relation.ReflTransGen.total_of_right_unique unique turns ends with more | more
    · exact congrArg Prod.fst (eq_of_turns_nil more)
    · exact congrArg Prod.fst (eq_of_turns_nil more).symm
  · rintro rfl
    exact ends

theorem head?_ancestors (present : p.contains name = true) :
    (p.ancestors name).head? = some name := by
  cases explores_ancestors present with
  | known member => cases member
  | fresh _ climbs explores =>
    cases explores
    obtain ⟨above, same⟩ := climbs.isPrefix
    rw [← same]
    rfl

end Program

/-! Ancestors that are kept. -/

namespace State

variable {p : Program} {o : Options} {s : State}

theorem Fresh.perform (fresh : s.Fresh p) (op : Operation) : (s.perform p o op).Fresh p := by
  rcases s.perform_cases op with evolves | ⟨receiver, site, same⟩ | ⟨m, rest, _, evolves⟩
  · exact fresh.evolves evolves
  · rw [same]
    exact fresh
  -- A member that is taken from the queue leaves the ancestors as they are.
  · exact Fresh.evolves (s := s.pop m rest) fresh evolves

theorem Fresh.foldl_perform (fresh : s.Fresh p) (ops : List Operation) :
    (ops.foldl (State.perform p o) s).Fresh p := by
  induction ops generalizing s with
  | nil => exact fresh
  | cons op rest ih => exact ih (fresh.perform op)

/-- Whatever operations are performed, what is kept is what would be computed again. -/
theorem fresh_after (ops : List Operation) : (after p o ops).Fresh p :=
  fresh_initial.foldl_perform ops

/-- Ancestors are kept from the first time they are asked for. -/
theorem Fresh.kept (fresh : s.Fresh p) (name : Name) :
    (s.lineage p name).2.lineages[name]? = some (p.ancestors name) := by
  rw [← fresh.lineage_fst name]
  unfold lineage Hierarchy.remember
  split
  · next stored => exact stored
  · exact Std.TreeMap.getElem?_insert_self

end State

/-- The ancestors of a unit are found by a search that comes to an end. They are the unit and all
that is above it, once each and in depth-first preorder, and at every moment of a run those that are
kept are the same. -/
theorem Program.ancestors_preorder {p : Program} {name : Name} (present : p.contains name = true) :
    (WellFounded fun after before => p.Turn before after) ∧
      (∀ last, Relation.ReflTransGen p.Turn ([], [name]) (last, []) ↔ last = p.ancestors name) ∧
      (p.ancestors name).Nodup ∧ (p.ancestors name).head? = some name ∧
      (∀ ancestor, ancestor ∈ p.ancestors name ↔ p.Inherits name ancestor) ∧
      (∀ last, p.Explores [] [name] last ↔ last = p.ancestors name) ∧
      ∀ o,
        (∀ roots s, State.Between p o roots s → ∃ ops, s = State.after p o ops) ∧
        ∀ ops, let s := State.after p o ops
          (∀ other lineage, s.lineages[other]? = some lineage → lineage = p.ancestors other) ∧
          ∀ other, (s.lineage p other).1 = p.ancestors other ∧
            (s.lineage p other).2.lineages[other]? = some (p.ancestors other) := by
  refine ⟨wellFounded_turn, fun _ => turns_iff present, p.nodup_ancestors name,
    head?_ancestors present, fun _ => p.mem_ancestors_iff present, fun _ => explores_iff present,
    fun o => ⟨fun roots s between => ?_, fun ops => ?_⟩⟩
  · obtain ⟨ops, _, same⟩ := between.composed
    exact ⟨ops, same⟩
  · have fresh := State.fresh_after (p := p) (o := o) ops
    exact ⟨fresh, fun other => ⟨fresh.lineage_fst other, fresh.kept other⟩⟩

/-- A class names an interface twice, its superclass has a missing parent, and another interface
leads back to the class. -/
def tangled : List UnitSummary :=
  [{ name := ⟨20⟩, kind := .plainClass, superclass := some ⟨21⟩,
     interfaces := [⟨23⟩, ⟨22⟩, ⟨23⟩] },
   { name := ⟨21⟩, kind := .plainClass, superclass := some ⟨40⟩, interfaces := [⟨22⟩] },
   { name := ⟨22⟩, kind := .interface, interfaces := [⟨24⟩, ⟨20⟩] },
   { name := ⟨23⟩, kind := .interface },
   { name := ⟨24⟩, kind := .interface, interfaces := [⟨23⟩] }]

-- The run creates an instance of the class, and keeps the ancestors it goes through.
theorem ancestors_tangled :
    let p := Program.ofUnits tangled
    let s := State.seeded p {} ⟨[.instantiate ⟨20⟩ ⟨30⟩], by decide⟩
    p.contains ⟨20⟩ = true ∧ p.ancestors ⟨20⟩ = [⟨20⟩, ⟨21⟩, ⟨22⟩, ⟨24⟩, ⟨23⟩] ∧
      Relation.ReflTransGen p.Turn ([], [⟨20⟩]) ([⟨20⟩, ⟨21⟩, ⟨22⟩, ⟨24⟩, ⟨23⟩], []) ∧
      p.Explores [] [⟨20⟩] [⟨20⟩, ⟨21⟩, ⟨22⟩, ⟨24⟩, ⟨23⟩] ∧ ¬ p.Inherits ⟨20⟩ ⟨40⟩ ∧
      s.lineages[(⟨20⟩ : Name)]? = some [⟨20⟩, ⟨21⟩, ⟨22⟩, ⟨24⟩, ⟨23⟩] ∧
      [⟨20⟩, ⟨21⟩, ⟨22⟩, ⟨24⟩, ⟨23⟩] = p.ancestors ⟨20⟩ ∧
      (s.lineage p ⟨22⟩).2.lineages[(⟨22⟩ : Name)]? = some (p.ancestors ⟨22⟩) := by
  intro p s
  have present : p.contains ⟨20⟩ = true := by decide
  have order : p.ancestors ⟨20⟩ = [⟨20⟩, ⟨21⟩, ⟨22⟩, ⟨24⟩, ⟨23⟩] := by decide
  have kept : s.lineages[(⟨20⟩ : Name)]? = some [⟨20⟩, ⟨21⟩, ⟨22⟩, ⟨24⟩, ⟨23⟩] := by decide
  obtain ⟨_, turns, _, _, above, explores, runs⟩ := Program.ancestors_preorder present
  obtain ⟨ops, same⟩ := (runs {}).1 _ s (.expanding 0)
  obtain ⟨fresh, asked⟩ := (runs {}).2 ops
  rw [← same] at fresh asked
  refine ⟨present, order, (turns _).mpr order.symm, (explores _).mpr order.symm, ?_, kept,
    fresh _ _ kept, (asked ⟨22⟩).2⟩
  rw [← above, order]
  decide

end TreeShake
