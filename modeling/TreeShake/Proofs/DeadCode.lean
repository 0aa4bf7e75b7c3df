import TreeShake.Proofs.Declarations
import TreeShake.Proofs.Exactness

set_option autoImplicit false

/-!
Dead code has no influence. All operations but expansion read only the declarations and the exports
of a program, and expansion reads the record of a member when the member is taken from the queue,
so when it is live. Two runs on programs that differ in the records of dead members are therefore
the same, step by step, and so are their reports, to the order of the diagnostics and of their
referrers.
-/

namespace TreeShake

/-- The member without its dependencies. -/
def MemberSummary.outline (m : MemberSummary) : MemberSummary :=
  { m with dependencies := {} }

/-- The unit without the dependencies of its members. -/
def UnitSummary.outline (u : UnitSummary) : UnitSummary :=
  { u with members := u.members.map MemberSummary.outline }

/-- The second version of a member differs from the first at most in its dependencies, and if the
first one has a body that is live, not at all. -/
structure MemberSummary.DeadChange (live : Prop) (m n : MemberSummary) : Prop where
  outline : m.outline = n.outline
  dependencies : m.isAbstract = false → live → m.dependencies = n.dependencies

/-- The second version of a unit differs from the first at most in dead code. -/
structure UnitSummary.DeadChange (live : MemberRef → Prop) (u v : UnitSummary) : Prop where
  outline : u.outline = v.outline
  members : List.Forall₂
    (fun m n => MemberSummary.DeadChange (live ⟨u.name, m.selector⟩) m n) u.members v.members

/-- The second list of units differs from the first at most in dead code. The code of a unit whose
name is taken, by an earlier one, is dead. -/
inductive UnitSummary.DeadChanges (live : MemberRef → Prop) :
    List Name → List UnitSummary → List UnitSummary → Prop
  | nil {taken} : DeadChanges live taken [] []
  | cons {taken u v rest others} : u.outline = v.outline →
      (u.name ∉ taken → DeadChange live u v) → DeadChanges live (u.name :: taken) rest others →
      DeadChanges live taken (u :: rest) (v :: others)

theorem UnitSummary.declaration_eq {u v : UnitSummary} (same : u.outline = v.outline) :
    u.declaration = v.declaration := by
  have through : ∀ w : UnitSummary, w.declaration = w.outline.declaration := by
    intro w
    simp only [declaration, outline, List.map_map]
    rfl
  rw [through, same, ← through]

theorem UnitSummary.DeadChange.name {live : MemberRef → Prop} {u v : UnitSummary}
    (change : DeadChange live u v) : u.name = v.name :=
  name_eq (shape_eq (declaration_eq change.outline))

/-- The units that count differ at most in dead code. -/
theorem UnitSummary.DeadChanges.firsts {live : MemberRef → Prop} {taken : List Name}
    {first second : List UnitSummary} (changes : DeadChanges live taken first second) :
    List.Forall₂ (DeadChange live) ((UnitSummary.firsts first).filter fun u => u.name ∉ taken)
      ((UnitSummary.firsts second).filter fun u => u.name ∉ taken) := by
  induction changes with
  | nil => exact .nil
  | @cons taken u v rest others same fresh _ ih =>
    have named := UnitSummary.name_eq (UnitSummary.shape_eq (UnitSummary.declaration_eq same))
    -- Whether the head is kept or not, its name is taken for the rest.
    have later : ∀ units : List UnitSummary,
        (units.filter fun later => later.name ≠ u.name).filter (fun later => later.name ∉ taken) =
          units.filter fun later => later.name ∉ u.name :: taken := by
      intro units
      rw [List.filter_filter]
      apply List.filter_congr
      intro later _
      simp [Bool.and_comm]
    rw [UnitSummary.firsts, UnitSummary.firsts, ← named, List.filter_cons, List.filter_cons, later,
      later, ← named]
    by_cases repeated : u.name ∈ taken
    · simpa [repeated] using ih
    · simpa [repeated] using List.Forall₂.cons (fresh repeated) ih

namespace Program.Alike

variable {p q : Program} {o : Options} (alike : p.Alike q)
include alike

/-! What the operations do depends on the declarations alone. -/

theorem require : State.require p o = State.require q o := by
  funext name referrer next s
  rw [State.require, alike.contains, State.require]

theorem requireAll : State.requireAll p o = State.requireAll q o := by
  funext names referrer s
  simp only [State.requireAll, alike.require]

theorem reachFrom (rounds : Nat) : State.reachFrom p o rounds = State.reachFrom q o rounds := by
  have present : p.contains = q.contains := funext alike.contains
  induction rounds with
  | zero => rfl
  | succ rounds ih =>
    funext pending s
    simp only [State.reachFrom, alike.parents, alike.fieldClasses, alike.requireAll, present, ih]

theorem reach : State.reach p o = State.reach q o := by
  funext name s
  simp only [State.reach, alike.reachFrom, alike.size]

theorem enqueue : State.enqueue p = State.enqueue q := by
  funext m s
  simp only [State.enqueue, alike.abstract?]

theorem activate : State.activate p o = State.activate q o := by
  funext name s
  simp only [State.activate, alike.slot?, alike.reach, alike.enqueue]

theorem schedule : State.schedule p o = State.schedule q o := by
  funext m s
  simp only [State.schedule, alike.abstract?, alike.enqueue, alike.reach, alike.activate]

theorem lineage (s : State) (name : Name) : s.lineage p name = s.lineage q name := by
  have same : Hierarchy.ancestors p.find? p.size name = Hierarchy.ancestors q.find? q.size name :=
    alike.ancestors name
  simp only [State.lineage, Hierarchy.remember, same]

theorem overridden : State.overridden p = State.overridden q := by
  funext owner candidates s
  induction candidates generalizing s with
  | nil => rfl
  | cons other rest ih => simp only [State.overridden, alike.lineage, ih]

theorem mostSpecific : State.mostSpecific p = State.mostSpecific q := by
  funext candidates owners s
  induction owners generalizing s with
  | nil => rfl
  | cons owner rest ih => simp only [State.mostSpecific, alike.overridden, ih]

theorem lookup : State.lookup p = State.lookup q := by
  funext cls method s
  simp only [State.lookup, alike.inherited?, alike.body?, alike.lineage, alike.defaultsAmong,
    alike.mostSpecific]

theorem lookupExact : State.lookupExact p = State.lookupExact q := by
  funext owner selector s
  simp only [State.lookupExact, alike.lookup, alike.slot?]

theorem resolve : State.resolve p o = State.resolve q o := by
  funext cls site s
  simp only [State.resolve, alike.lookup, alike.schedule, alike.isHostProvided]

theorem instantiate : State.instantiate p o = State.instantiate q o := by
  funext cls referrer s
  simp only [State.instantiate, State.instantiateBelow, alike.kind?, alike.activate,
    alike.lineage, alike.resolve]

theorem call : State.call p o = State.call q o := by
  funext receiver method referrer s
  simp only [State.call, State.keepContract, alike.lineage, alike.contractAmong?, alike.schedule,
    alike.resolve]

theorem callExact : State.callExact p o = State.callExact q o := by
  funext owner selector referrer s
  simp only [State.callExact, alike.lookupExact, alike.hostAnswers, alike.schedule, alike.reach]

theorem loadModule : State.loadModule p o = State.loadModule q o := by
  funext name referrer s
  simp only [State.loadModule, alike.kind?, alike.instantiate, alike.callExact]

theorem follow : State.follow p o = State.follow q o := by
  funext edge referrer s
  simp only [State.follow, alike.require, alike.activate, alike.reach, alike.call, alike.callExact,
    alike.instantiate, alike.loadModule]

theorem expand : State.expand p o = State.expand q o := by
  funext d referrer s
  simp only [State.expand, State.meet, alike.require, alike.activate, alike.follow]

theorem addRoot : State.addRoot p o = State.addRoot q o := by
  funext root s
  simp only [State.addRoot, alike.require, alike.reach, alike.callExact, alike.loadModule,
    alike.instantiate]

/-- The seeds also depend on the exports. -/
theorem plant (exports : p.exports = q.exports) (exposes : p.exposes = q.exposes) :
    State.plant p o = State.plant q o := by
  funext seed s
  simp only [State.plant, State.exportUnit, State.exposeUnit, exports, exposes, alike.kind?,
    alike.require, alike.reach, alike.loadModule, alike.instantiate, alike.schedule, alike.addRoot]

end Program.Alike

/-! Programs with the same outline. -/

/-- What is read off the outlines of the entries that are kept is the same in both lists. -/
theorem map_filter_congr {α β : Type} (outline : α → α) {keep : α → Bool} {view : α → β}
    (kept : ∀ a, keep (outline a) = keep a) (viewed : ∀ a, view (outline a) = view a)
    {first second : List α} (same : first.map outline = second.map outline) :
    (first.filter keep).map view = (second.filter keep).map view := by
  have through : ∀ entries : List α,
      (entries.filter keep).map view = ((entries.map outline).filter keep).map view := by
    intro entries
    rw [List.filter_map, List.map_map, funext (f := view ∘ outline) viewed,
      funext (f := keep ∘ outline) kept]
  rw [through, same, ← through]

/-- The programs differ at most in the dependencies of their members. -/
def Program.SameOutline (p q : Program) : Prop :=
  p.units.map UnitSummary.outline = q.units.map UnitSummary.outline

theorem Program.sameOutline_iff {p q : Program} : p.SameOutline q ↔
    List.Forall₂ (fun u v => UnitSummary.outline u = UnitSummary.outline v) p.units q.units := by
  rw [SameOutline, ← List.forall₂_eq_eq_eq, List.forall₂_map_left_iff, List.forall₂_map_right_iff]

namespace Program.SameOutline

variable {p q : Program} (same : p.SameOutline q)
include same

theorem alike : p.Alike q :=
  alike_of_forall₂ ((sameOutline_iff.mp same).imp fun _ _ => UnitSummary.declaration_eq)

theorem seeds (roots : RootSet) : p.seeds roots = q.seeds roots := by
  have boxed : (p.units.filter fun u => u.kind = .boxedClass).map (fun u => Seed.boxed u.name) =
      (q.units.filter fun u => u.kind = .boxedClass).map (fun u => Seed.boxed u.name) :=
    map_filter_congr UnitSummary.outline (fun _ => rfl) (fun _ => rfl) same
  have exported : (p.units.filter UnitSummary.isExported).map (fun u => Seed.exported u.name) =
      (q.units.filter UnitSummary.isExported).map (fun u => Seed.exported u.name) :=
    map_filter_congr UnitSummary.outline (fun _ => rfl) (fun _ => rfl) same
  rw [Program.seeds, boxed, exported, Program.seeds]

theorem rel_find? (name : Name) :
    Option.Rel (fun u v => UnitSummary.outline u = UnitSummary.outline v) (p.find? name)
      (q.find? name) := by
  have names : ∀ u v : UnitSummary, u.outline = v.outline → u.name = v.name :=
    fun _ _ same => UnitSummary.name_eq (UnitSummary.shape_eq (UnitSummary.declaration_eq same))
  have pair := Program.rel_find? names (sameOutline_iff.mp same) name
  generalize p.find? name = here, q.find? name = there at pair
  cases pair with
  | none => exact .none
  | some pair => exact .some pair.2

theorem exports : p.exports = q.exports := by
  funext name
  have pair := same.rel_find? name
  unfold Program.exports
  generalize p.find? name = here, q.find? name = there at pair
  cases pair with
  | none => rfl
  | @some u v pair =>
    have members : u.members.map MemberSummary.outline = v.members.map MemberSummary.outline :=
      congrArg UnitSummary.members pair
    have entries := congrArg List.zipIdx members
    rw [List.zipIdx_map, List.zipIdx_map] at entries
    exact map_filter_congr (Prod.map MemberSummary.outline id) (fun _ => rfl) (fun _ => rfl) entries

theorem exposes : p.exposes = q.exposes := by
  funext name
  have pair := same.rel_find? name
  unfold Program.exposes
  generalize p.find? name = here, q.find? name = there at pair
  cases pair with
  | none => rfl
  | @some u v pair =>
    have members : u.members.map MemberSummary.outline = v.members.map MemberSummary.outline :=
      congrArg UnitSummary.members pair
    have through : ∀ entries : List MemberSummary,
        (entries.any fun m => m.isExported && m.selector ≠ .topLevelExports) =
          (entries.map MemberSummary.outline).any fun m =>
            m.isExported && m.selector ≠ .topLevelExports := by
      intro entries
      rw [List.any_map]
      rfl
    rw [Option.any_some, Option.any_some, through, members, ← through]

theorem bodyCount : p.bodyCount = q.bodyCount := by
  have through : ∀ units : List UnitSummary,
      (units.flatMap UnitSummary.members).countP (fun m => !m.isAbstract) =
        ((units.map UnitSummary.outline).flatMap UnitSummary.members).countP
          fun m => !m.isAbstract := by
    intro units
    induction units with
    | nil => rfl
    | cons u rest ih =>
      rw [List.map_cons, List.flatMap_cons, List.flatMap_cons, List.countP_append, ih,
        List.countP_append, UnitSummary.outline, List.countP_map]
      rfl
  rw [Program.bodyCount, through, same, ← through, Program.bodyCount]

theorem finish (s : State) : s.finish p = s.finish q := by
  have report : ∀ u : UnitSummary, s.unitReport u.outline = s.unitReport u := by
    intro u
    simp only [State.unitReport, State.liveMembers, UnitSummary.outline, List.zipIdx_map,
      List.filter_map, List.map_map]
    rfl
  rw [State.finish, map_filter_congr UnitSummary.outline (fun _ => rfl) report same, State.finish]

theorem seeded (o : Options) (roots : RootSet) :
    State.seeded p o roots = State.seeded q o roots := by
  rw [State.seeded, same.seeds, same.alike.plant same.exports same.exposes, State.seeded]

end Program.SameOutline

namespace State

variable {p q : Program} {o : Options} {s : State} {config : Config}

/-- Programs with the same declarations take the same steps, if they have the same dependencies in
all members that are live in the end. -/
theorem steps_congr (alike : p.Alike q) (count : Nat) (valid : Worklist p s)
    (same : ∀ m, (s.steps p o count).progress.get m = .reached → p.abstract? m = some false →
      p.dependencies m = q.dependencies m) :
    s.steps p o count = s.steps q o count := by
  induction count generalizing s with
  | zero => rfl
  | succ count ih =>
    have step : s.step p o = s.step q o := by
      cases front : s.queue with
      | nil => rw [State.step, front, State.step, front]
      | cons m rest =>
        have body := valid.bodies m (front ▸ List.mem_cons_self)
        have record := same m (valid.reached_steps front count) body
        rw [step_of_queue front, step_of_queue front, alike.expand, alike.ref, record]
    rw [steps, steps, ← step]
    exact ih valid.step same

/-- The report keeps the members with a body that a run has expanded. -/
theorem Complete.keeps (complete : s.Complete p config) {m : Slot}
    (reached : s.progress.get m = .reached) (body : p.abstract? m = some false) :
    (s.finish p).keeps (p.ref m) = true := by
  have declared : p.Declared (.body m) := body
  exact complete.shows declared ⟨(complete.reached_iff_seen m).mp reached, body⟩

end State

/-- The dependencies of a live member are the same in both programs. -/
theorem Program.dependencies_eq_of_deadChange {p q : Program} {live : MemberRef → Prop}
    (units : List.Forall₂ (UnitSummary.DeadChange live) p.units q.units) {m : Slot}
    (body : p.abstract? m = some false) (reached : live (p.ref m)) :
    p.dependencies m = q.dependencies m := by
  obtain ⟨summary, declared, concrete⟩ := abstract?_eq_some_iff.mp body
  obtain ⟨later, again, change⟩ := exists_member? (fun m => MemberSummary.DeadChange (live m))
    (fun _ _ change => change.name) (fun _ _ change => change.members) units declared
  rw [ref_of_member? declared] at reached
  rw [dependencies, declared, dependencies, again]
  exact change.dependencies concrete reached

/-- The dependencies of dead members have no influence on the report. -/
theorem analyze_eq_of_deadChanges {first second : List UnitSummary} {config : Config}
    (changes : UnitSummary.DeadChanges (fun m => (analyze first config).keeps m = true) []
      first second) :
    analyze first config = analyze second config := by
  have units : List.Forall₂ (UnitSummary.DeadChange fun m => (analyze first config).keeps m = true)
      (Program.ofUnits first).units (Program.ofUnits second).units := by
    simpa [Program.ofUnits] using changes.firsts
  have same : (Program.ofUnits first).SameOutline (Program.ofUnits second) :=
    Program.sameOutline_iff.mpr (units.imp fun _ _ change => change.outline)
  have run : State.run (Program.ofUnits first) config.toOptions config.roots =
      State.run (Program.ofUnits second) config.toOptions config.roots := by
    unfold State.run
    rw [← same.seeded, ← same.bodyCount]
    apply State.steps_congr same.alike _ (State.worklist_seeded config.roots)
    intro m reached body
    exact Program.dependencies_eq_of_deadChange units body (State.complete_run.keeps reached body)
  calc analyze first config
      = (State.run (Program.ofUnits first) config.toOptions config.roots).finish
          (Program.ofUnits first) := rfl
    _ = (State.run (Program.ofUnits second) config.toOptions config.roots).finish
          (Program.ofUnits second) := by rw [run, same.finish]

/-- A class with two exported methods of one name, an abstract method that the first of them calls,
and a method that nobody calls, and a second class of the same name. All records but the first two
are as given. -/
def burdened (record : Dependencies) : List UnitSummary :=
  [{ name := ⟨20⟩, kind := .plainClass, isExported := true,
     members := [{ selector := .method ⟨30⟩, isExported := true,
                   dependencies := { calls := [(⟨20⟩, [⟨31⟩])] } },
                 { selector := .method ⟨30⟩, isExported := true,
                   dependencies := { hostGlobals := [⟨51⟩] } },
                 { selector := .method ⟨31⟩, isAbstract := true, dependencies := record },
                 { selector := .method ⟨32⟩, dependencies := record }] },
   { name := ⟨20⟩, kind := .plainClass, isExported := true,
     members := [{ selector := .method ⟨30⟩, isExported := true, dependencies := record }] }]

theorem analyze_burdened :
    analyze (burdened {}) {} =
        analyze (burdened { calls := [(⟨40⟩, [⟨32⟩])], hostGlobals := [⟨50⟩] }) {} ∧
      (analyze (burdened {}) {}).keeps ⟨⟨20⟩, .method ⟨30⟩⟩ = true ∧
      (analyze (burdened {}) {}).hostGlobals = [⟨51⟩] ∧
      .method ⟨31⟩ ∈ (analyze (burdened {}) {}).contracts ⟨20⟩ := by
  refine ⟨analyze_eq_of_deadChanges ?_, by decide, by decide, by decide⟩
  have dead : (analyze (burdened {}) {}).keeps ⟨⟨20⟩, .method ⟨32⟩⟩ = false := by decide
  refine .cons rfl (fun _ => ⟨rfl, ?_⟩) (.cons rfl (fun fresh => ?_) .nil)
  · refine .cons ⟨rfl, fun _ _ => rfl⟩ (.cons ⟨rfl, fun _ _ => rfl⟩ (.cons ⟨rfl, nofun⟩
      (.cons ⟨rfl, fun _ live => ?_⟩ .nil)))
    exact absurd (dead.symm.trans live) nofun
  · exact absurd List.mem_cons_self fresh

end TreeShake
