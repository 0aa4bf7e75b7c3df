import TreeShake.Proofs.Duties

set_option autoImplicit false

/-!
What is open after an elementary addition: the duties of the fact that was added, and those that
were open before. Reaching a unit leaves nothing open, because the search goes on until the parents
of all reached units are reached.
-/

namespace TreeShake.State

variable {p : Program} {o : Options} {due : Set Duty} {s t : State}

theorem has_mark_self (name : Name) (use : Use) : (s.mark name use).has name use = true :=
  s.has_mark.mpr (.inl ⟨rfl, rfl⟩)

/-! The elementary additions, and the duties that arise from them. -/

theorem owes_mark {name : Name} {use : Use} {duty : Duty} (owes : (s.mark name use).Owes p duty) :
    s.Owes p duty ∨ duty = .use name use := by
  cases duty with
  | use other wanted =>
    rcases s.has_mark.mp owes with ⟨rfl, rfl⟩ | held
    · exact .inr rfl
    · exact .inl held
  | member | fields | call | dispatch | expansion => exact .inl owes

theorem owes_report {defect : Defect} {referrer : Referrer} {duty : Duty}
    (owes : (s.report o defect referrer).Owes p duty) : s.Owes p duty := by
  cases duty <;> exact owes

/-- Progress of a member opens its own duties, and those of its code once it is reached. -/
theorem owes_setProgress {m : Slot} {progress : Progress} {queue : List Slot} {duty : Duty}
    (owes : Owes p { s with progress := s.progress.set m progress, queue := queue } duty) :
    s.Owes p duty ∨ duty = .member m ∨
      duty = .expansion m ∧ progress = .reached ∧ p.abstract? m = some false := by
  cases duty with
  | use | fields | call | dispatch => exact .inl owes
  | member other =>
    simp only [Owes, TotalMap.get_set] at owes
    split at owes
    · next same => exact .inr (.inl (by rw [same]))
    · exact .inl owes
  | expansion other =>
    simp only [Owes, TotalMap.get_set] at owes
    obtain ⟨reached, body⟩ := owes
    split at reached
    · next same => exact .inr (.inr ⟨by rw [same], reached, same ▸ body⟩)
    · exact .inl ⟨reached, body⟩

theorem owes_enqueue {m : Slot} {duty : Duty} (owes : (s.enqueue p m).Owes p duty) :
    s.Owes p duty ∨ duty = .member m := by
  unfold enqueue at owes
  split at owes
  · split at owes
    · exact .inl owes
    · next declaration =>
      rcases owes_setProgress owes with owed | own | ⟨_, _, body⟩
      · exact .inl owed
      · exact .inr own
      · rw [declaration] at body
        cases body
    · rcases owes_setProgress owes with owed | own | ⟨_, reached, _⟩
      · exact .inl owed
      · exact .inr own
      · cases reached
  · exact .inl owes

theorem owes_ask {name : Name} {duty : Duty} (owes : (s.lineage p name).2.Owes p duty) :
    s.Owes p duty := by
  cases duty <;> exact owes

theorem owes_accessField {access : Access} {owner field : Name} {duty : Duty}
    (owes : (s.accessField access owner field).Owes p duty) :
    s.Owes p duty ∨ duty = .fields owner := by
  cases duty with
  | use | member | call | dispatch | expansion => exact .inl owes
  | fields other =>
    obtain ⟨kind, some⟩ := owes
    obtain ⟨found, member⟩ := List.exists_mem_of_ne_nil _ some
    rcases s.mem_accessField.mp member with ⟨_, rfl, _⟩ | held
    · exact .inr rfl
    · exact .inl ⟨kind, List.ne_nil_of_mem held⟩

theorem called_logCall {receiver other method : Name} {site : CallSite} :
    (s.logCall receiver site).called other method = true ↔
      s.called other method = true ∨ receiver = other ∧ site.method = method := by
  rw [called_iff, called_iff, calls_logCall]
  split
  · next same => simp [same, or_and_right, exists_or]
  · next different => simp [different]

theorem mem_addSubclass {ancestor other cls wanted : Name} :
    wanted ∈ (s.addSubclass ancestor cls).subclasses.get other ↔
      wanted ∈ s.subclasses.get other ∨ ancestor = other ∧ wanted = cls := by
  simp only [addSubclass, TotalMap.get_modify]
  split
  · next same => simp [same]
  · next different => simp [different]

/-! What is settled stays settled while a state grows. -/

theorem Settled.grow {wider : Set Duty} (settled : Settled p o due s) (grows : Grows s t)
    (above : ∀ name, t.has name .reached = true → s.has name .reached = true)
    (kept : due ⊆ wider) (arisen : ∀ duty, t.Owes p duty → s.Owes p duty ∨ duty ∈ wider)
    (fresh : s.Fresh p → t.Fresh p) : Settled p o wider t where
  fresh := fresh settled.fresh
  above name reached := grows.supported (settled.above name (above name reached))
  duties duty owes := by
    rcases arisen duty owes with owed | new
    · rcases settled.duties duty owed with left | settles
      · exact .inl (kept left)
      · exact .inr (grows.settles settles)
    · exact .inl new

theorem Settled.mark (settled : Settled p o due s) (name : Name) (use : Use)
    (later : use ≠ .reached) : Settled p o (insert (.use name use) due) (s.mark name use) := by
  refine settled.grow (grows_mark ..) ?_ (Set.subset_insert ..) ?_ id
  · intro other reached
    rcases s.has_mark.mp reached with ⟨_, same⟩ | held
    · exact absurd same.symm later
    · exact held
  · intro duty owes
    rcases owes_mark owes with owed | rfl
    · exact .inl owed
    · exact .inr (Set.mem_insert ..)

theorem Settled.report (settled : Settled p o due s) (defect : Defect) (referrer : Referrer) :
    Settled p o due (s.report o defect referrer) :=
  settled.grow (grows_report ..) (fun _ reached => reached) (Set.Subset.refl _)
    (fun _ owes => .inl (owes_report owes)) id

theorem Settled.ask (settled : Settled p o due s) (name : Name) :
    Settled p o due (s.lineage p name).2 :=
  settled.grow (grows_ask ..) (fun _ reached => reached) (Set.Subset.refl _)
    (fun _ owes => .inl (owes_ask owes)) fun fresh => fresh.ask name

theorem Settled.asks (settled : Settled p o due s) (asks : Asks p s t) : Settled p o due t := by
  induction asks with
  | refl => exact settled
  | tail _ asked ih =>
    obtain ⟨name, rfl⟩ := asked
    exact ih.ask name

theorem has_enqueue (m : Slot) : (s.enqueue p m).has = s.has := by
  unfold enqueue
  split
  · split <;> rfl
  · rfl

theorem Settled.enqueue (settled : Settled p o due s) (m : Slot) :
    Settled p o (insert (.member m) due) (s.enqueue p m) := by
  refine settled.grow (grows_enqueue ..) ?_ (Set.subset_insert ..) ?_
    fun fresh => fresh.evolves (o := o) (.single (.spread (.enqueue ..)))
  · intro name reached
    rwa [has_enqueue] at reached
  · intro duty owes
    rcases owes_enqueue owes with owed | rfl
    · exact .inl owed
    · exact .inr (Set.mem_insert ..)

/-- A new call has to meet the classes below its receiver. -/
theorem Settled.logCall (settled : Settled p o due s) (receiver : Name) (site : CallSite) :
    Settled p o
      (insert (.call receiver site.method)
        ({duty | ∃ cls, duty = .dispatch receiver site.method cls} ∪ due))
      (s.logCall receiver site) := by
  refine settled.grow (grows_logCall ..) (fun _ reached => reached) ?_ ?_ id
  · exact fun duty left => Set.mem_insert_of_mem _ (Set.mem_union_right _ left)
  · intro duty owes
    cases duty with
    | use | member | fields | expansion => exact .inl owes
    | call other method =>
      rcases called_logCall.mp owes with owed | ⟨rfl, rfl⟩
      · exact .inl owed
      · exact .inr (Set.mem_insert ..)
    | dispatch other method cls =>
      rcases called_logCall.mp owes.1 with owed | ⟨rfl, rfl⟩
      · exact .inl ⟨owed, owes.2⟩
      · exact .inr (Set.mem_insert_of_mem _ (Set.mem_union_left _ ⟨cls, rfl⟩))

/-- A new class has to meet the calls on its ancestor. -/
theorem Settled.addSubclass (settled : Settled p o due s) (ancestor cls : Name) :
    Settled p o ({duty | ∃ method, duty = .dispatch ancestor method cls} ∪ due)
      (s.addSubclass ancestor cls) := by
  refine settled.grow (grows_addSubclass ..) (fun _ reached => reached)
    (Set.subset_union_right ..) ?_ id
  intro duty owes
  cases duty with
  | use | member | fields | call | expansion => exact .inl owes
  | dispatch other method wanted =>
    rcases mem_addSubclass.mp owes.2 with owed | ⟨rfl, rfl⟩
    · exact .inl ⟨owes.1, owed⟩
    · exact .inr (Set.mem_union_left _ ⟨method, rfl⟩)

/-- A duty may be struck off when its consequences are there, or when it does not exist. -/
theorem Settled.pay {wider : Set Duty} (settled : Settled p o wider s)
    (paid : ∀ duty ∈ wider, s.Owes p duty → duty ∈ due ∨ s.Settles p o duty) :
    Settled p o due s where
  fresh := settled.fresh
  above := settled.above
  duties duty owes := by
    rcases settled.duties duty owes with left | settles
    · exact paid duty left owes
    · exact .inr settles

theorem Settled.payOne {duty : Duty} (settled : Settled p o (insert duty due) s)
    (settles : s.Settles p o duty) : Settled p o due s := by
  apply settled.pay
  intro other left _
  rcases left with rfl | left
  · exact .inr settles
  · exact .inl left

/-! Reaching a unit. Units are reached before their parents, so the parents are pending. -/

theorem ensured_requireAll {names : List Name} {referrer : Referrer} {other : Name}
    (member : other ∈ names) :
    (s.requireAll p o names referrer).Ensured p o other referrer fun _ => True := by
  induction names generalizing s with
  | nil => exact absurd member List.not_mem_nil
  | cons first rest ih =>
    rcases List.mem_cons.mp member with rfl | member
    · have required : (s.require p o other referrer id).Ensured p o other referrer fun _ => True := by
        unfold require Ensured
        split
        · trivial
        · intro reporting
          unfold report
          simp only [reporting, Diagnostic.entries_record]
          exact Diagnostic.mentioned_record.mpr (.inl ⟨rfl, rfl⟩)
      exact (spreads_requireAll rest referrer _).grows.ensured required id
    · exact ih member

theorem owes_requireAll {names : List Name} {referrer : Referrer} {duty : Duty}
    (owes : (s.requireAll p o names referrer).Owes p duty) : s.Owes p duty := by
  induction names generalizing s with
  | nil => exact owes
  | cons first rest ih =>
    have owed : (s.require p o first referrer id).Owes p duty := ih owes
    unfold require at owed
    split at owed
    · exact owed
    · exact owes_report owed

theorem has_requireAll (names : List Name) (referrer : Referrer) :
    (s.requireAll p o names referrer).has = s.has := by
  induction names generalizing s with
  | nil => rfl
  | cons first rest ih =>
    have same : (s.require p o first referrer id).has = s.has := by
      unfold require
      split <;> rfl
    rw [← same]
    exact ih

theorem owes_reachFrom {rounds : Nat} {pending : List Name} {duty : Duty}
    (owes : (s.reachFrom p o rounds pending).Owes p duty) :
    s.Owes p duty ∨ ∃ name, duty = .use name .reached := by
  induction rounds generalizing pending s with
  | zero => exact .inl owes
  | succ rounds ih =>
    rw [reachFrom] at owes
    split at owes
    · exact .inl owes
    · next name rest _ =>
      rcases ih owes with owed | reached
      · rcases owes_mark (owes_requireAll owed) with owed | rfl
        · exact .inl owed
        · exact .inr ⟨name, rfl⟩
      · exact .inr reached

/-- A round of the search opens the unit that it marks, and no other. -/
theorem supported_markAll {name : Name} {named : List Name} {opened : Set Name}
    (above : ∀ n, s.has n .reached = true → n ∈ opened ∨ s.Supported p o n) (n : Name)
    (reached : ((s.mark name .reached).requireAll p o named (.unit name)).has n .reached = true) :
    n ∈ insert name opened ∨
      ((s.mark name .reached).requireAll p o named (.unit name)).Supported p o n := by
  rw [has_requireAll] at reached
  rcases s.has_mark.mp reached with ⟨rfl, _⟩ | held
  · exact .inl (Set.mem_insert ..)
  · have grows : Grows s ((s.mark name .reached).requireAll p o named (.unit name)) :=
      (grows_mark ..).trans (spreads_requireAll named (.unit name) _).grows
    rcases above n held with left | supported
    · exact .inl (Set.mem_insert_of_mem _ left)
    · exact .inr (grows.supported supported)

/-- Every unit that is reached is supported at the end of the search, but for those that were not
before it. -/
theorem reachFrom_supported {rounds : Nat} {pending : List Name} {opened : Set Name}
    (room : p.unknown (fun name => s.has name .reached) ≤ rounds)
    (present : ∀ name ∈ pending, p.contains name = true)
    (above : ∀ name, s.has name .reached = true → name ∈ opened ∨ s.Supported p o name) :
    (∀ name, (s.reachFrom p o rounds pending).has name .reached = true →
        name ∈ opened ∨ (s.reachFrom p o rounds pending).Supported p o name) ∧
      ∀ name ∈ pending, (s.reachFrom p o rounds pending).has name .reached = true := by
  induction rounds generalizing pending opened s with
  | zero =>
    refine ⟨above, fun name member => ?_⟩
    exact p.known_of_unknown_eq_zero (Nat.le_zero.mp room) (present name member)
  | succ rounds ih =>
    rw [reachFrom]
    split
    · next done => exact ⟨above, List.dropWhile_eq_nil_iff.mp done⟩
    · next name rest dropped =>
      obtain ⟨fresh, member, inside, covered⟩ := mem_of_dropWhile_eq_cons dropped
      -- This unit is open until its parents are reached, further down the search.
      let named := p.parents name ++ p.fieldClasses name
      let marked := (s.mark name .reached).requireAll p o named (.unit name)
      have grows : Grows s marked :=
        (grows_mark ..).trans (spreads_requireAll named (.unit name) _).grows
      have reached : marked.has name .reached = true := by
        show ((s.mark name .reached).requireAll p o named (.unit name)).has name .reached = true
        rw [has_requireAll]
        exact has_mark_self ..
      have fewer : p.unknown (fun n => marked.has n .reached) <
          p.unknown (fun n => s.has n .reached) :=
        p.unknown_lt (present name member) fresh (fun n => grows.uses n .reached) reached
      have presentNext : ∀ n ∈ ((p.parents name).filter p.contains).reverse ++ rest,
          p.contains n = true := by
        intro n h
        rcases List.mem_append.mp h with h | h
        · exact (List.mem_filter.mp (List.mem_reverse.mp h)).2
        · exact present n (inside h)
      have aboveNext : ∀ n, marked.has n .reached = true →
          n ∈ insert name opened ∨ marked.Supported p o n := supported_markAll above
      obtain ⟨supported, all⟩ := ih (by omega) presentNext aboveNext
      have later : Grows marked (marked.reachFrom p o rounds
          (((p.parents name).filter p.contains).reverse ++ rest)) := (spreads_reachFrom ..).grows
      constructor
      · intro n h
        rcases supported n h with (rfl | left) | supports
        · refine .inr ⟨fun parent above => all parent ?_, fun other mentioned => ?_⟩
          · refine List.mem_append_left _ (List.mem_reverse.mpr (List.mem_filter.mpr ?_))
            exact ⟨above.1, above.2⟩
          · exact later.ensured (ensured_requireAll mentioned) id
        · exact .inl left
        · exact .inr supports
      · intro n h
        rcases covered n h with h | rfl | h
        · exact later.uses _ _ (grows.uses _ _ h)
        · exact later.uses _ _ reached
        · exact all n (List.mem_append_right _ h)

theorem Settled.reach (settled : Settled p o due s) {name : Name} (present : p.contains name = true) :
    Settled p o due (s.reach p o name) ∧ (s.reach p o name).has name .reached = true := by
  have above : ∀ n, s.has n .reached = true → n ∈ (∅ : Set Name) ∨ s.Supported p o n :=
    fun n reached => .inr (settled.above n reached)
  have room : p.unknown (fun n => s.has n .reached) ≤ p.size := p.unknown_le_size _
  obtain ⟨supported, reached⟩ := reachFrom_supported room
    (show ∀ n ∈ [name], p.contains n = true by simpa using present) above
  have fresh := settled.fresh.evolves (spreads_reach (o := o) name s).evolves
  refine ⟨⟨fresh, fun n h => (supported n h).resolve_left (Set.notMem_empty n), ?_⟩,
    reached name (List.mem_singleton_self name)⟩
  intro duty owes
  rcases owes_reachFrom owes with owed | ⟨n, rfl⟩
  · rcases settled.duties duty owed with left | settles
    · exact .inl left
    · exact .inr ((spreads_reach name s).grows.settles settles)
  · exact .inr trivial

end TreeShake.State
