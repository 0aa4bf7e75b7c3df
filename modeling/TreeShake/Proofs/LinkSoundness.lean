import TreeShake.Proofs.Agreement
import TreeShake.Proofs.Exactness
import TreeShake.Proofs.Extraction

set_option autoImplicit false

/-!
What is linked can run. For each body that the report keeps, the report honours every node that is
evaluated: the classes it constructs have instances, the fields it uses are listed, and whatever its
calls may run is kept. The demands are stated on the definitions that were handed to the linker.
-/

namespace TreeShake

namespace UnitDef

def Present (units : List UnitDef) (name : Name) : Prop := ∃ u ∈ units, u.name = name

/-- The member has a body in the definitions. -/
def Implemented (units : List UnitDef) (m : MemberRef) : Prop :=
  ∃ u ∈ units, u.name = m.owner ∧ ∃ body, u.HasBody m.selector body

end UnitDef

namespace Linked

variable (linked : Linked) (units : List UnitDef)

def program : Program := .ofUnits linked.summaries

/-- The member is kept if it has a body. -/
def Keeps (m : MemberRef) : Prop := UnitDef.Implemented units m → linked.report.keeps m = true

def Constructs (cls ctor : Name) : Prop :=
  ∀ u ∈ units, u.name = cls → u.kind ≠ .interface →
    linked.report.has cls .instantiated = true ∧ linked.Keeps units ⟨cls, .ctor ctor⟩

def Reads (owner field : Name) : Prop :=
  UnitDef.Present units owner →
    field ∈ linked.report.reads owner ∧ linked.Keeps units ⟨owner, .staticInitializer⟩

def Writes (owner field : Name) : Prop :=
  UnitDef.Present units owner →
    field ∈ linked.report.writes owner ∧ linked.Keeps units ⟨owner, .staticInitializer⟩

def LoadsModule (name : Name) : Prop :=
  ∀ u ∈ units, u.name = name → u.kind.isModule = true →
    linked.report.has name .moduleAccessed = true ∧ linked.report.has name .instantiated = true ∧
      linked.Keeps units ⟨name, .ctor Name.defaultConstructor⟩

/-- Whatever implements the method in an instantiated class at or below the receiver is kept. -/
def Dispatches (receiver method : Name) : Prop :=
  ∀ cls owner, linked.report.has cls .instantiated = true → linked.program.Inherits cls receiver →
    linked.program.implementation? cls method = some owner →
    linked.report.keeps ⟨owner, .method method⟩ = true

/-- What an exact call makes live is in the report. A member outside the public namespace is the
owner's own. -/
def CallsExactly (owner : Name) (selector : Selector) : Prop :=
  (selector.space ≠ .pub → linked.Keeps units ⟨owner, selector⟩) ∧
    ∀ fact, linked.program.ExactCall owner selector fact →
      linked.report.Shows (linked.program.named fact)

/-- A virtual call, by the type of its receiver. -/
def Invokes (receiver : Ty) (method : Name) : Prop :=
  match receiver with
  | .cls name => linked.Dispatches name method
  | .any => linked.Dispatches Name.object method
  | .prim p => linked.Dispatches p.boxedClass method
  | .array _ => method ≠ Name.clone → linked.CallsExactly units Name.object (.method method)
  | .nothing | .null | .noValue | .record _ => True

/-- The class that a type names is used in this way. -/
def UsesClass (target : TypeRef) (use : Use) : Prop :=
  ∀ cls, target.className? = some cls → UnitDef.Present units cls →
    linked.report.has cls use = true

/-- The report has what the node needs when it is evaluated. -/
def Honours (e : Expr) : Prop :=
  match e.node with
  | .construct cls ctor _ => linked.Constructs units cls ctor
  | .staticField owner field => linked.Reads units owner field
  | .assign ⟨.staticField owner field, _⟩ _ => linked.Writes units owner field
  | .loadModule name => linked.LoadsModule units name
  | .call receiver method _ => linked.Invokes units receiver.ty method
  | .callExact space _ owner method _ => linked.CallsExactly units owner ⟨space, method⟩
  | .callStatic owner method _ => linked.CallsExactly units owner (.static method)
  | .binary op _ divisor => op.isIntegralDivision = true → divisor.isNonzeroIntegral = false →
      linked.Constructs units Name.arithmeticException Name.messageConstructor
  | .isInstance _ target | .cast _ target => linked.UsesClass units target .typeTested
  | .newArray type _ | .arrayOf type _ => linked.UsesClass units (.array type) .dataAccessed
  | .literal (.classOf target) => linked.UsesClass units target .dataAccessed
  | .hostGlobal name => name ∈ linked.report.hostGlobals
  | _ => True

/-- The result of linking the units. -/
structure Of (config : Config) : Prop where
  shown_iff : ∀ fact, linked.program.Shown linked.report fact ↔ linked.program.Live config fact
  find? : ∀ u ∈ units, ∃ summary, u.summary = .ok summary ∧
    linked.program.find? u.name = some summary

variable {linked units} {config : Config}

theorem of_link (distinct : (units.map UnitDef.name).Nodup)
    (done : link units config = .ok linked) : linked.Of units config := by
  obtain ⟨summaries, summarized, rfl⟩ := map_eq_ok done
  have ordered := Program.ordered_ofUnits (UnitDef.ascending_summaries summarized)
  refine ⟨fun fact => Program.shown_analyze_iff ordered, fun u member => ?_⟩
  obtain ⟨summary, inside, found⟩ := UnitDef.exists_summary summarized member
  have named : summary.name = u.name := (UnitDef.summary_eq_ok found).choose_spec.2.1
  refine ⟨summary, found, (Program.find?_eq_some_iff _).mpr ⟨?_, named⟩⟩
  rw [← UnitDef.map_name_summaries summarized] at distinct
  show summary ∈ UnitSummary.firsts summaries
  rwa [UnitSummary.firsts_eq_self distinct]

namespace Of

variable (result : linked.Of units config)
include result

theorem closed {fact : Fact Slot}
    (derives : linked.program.Derives config (linked.program.Shown linked.report) fact) :
    linked.program.Shown linked.report fact := by
  have same : linked.program.Shown linked.report = linked.program.Live config :=
    funext fun fact => propext (result.shown_iff fact)
  rw [same] at derives ⊢
  exact .derived derives

theorem kind? {u : UnitDef} (member : u ∈ units) : linked.program.kind? u.name = some u.kind := by
  obtain ⟨summary, found, inside⟩ := result.find? u member
  rw [Program.kind?, inside, Option.map_some]
  exact congrArg some (UnitDef.summary_eq_ok found).choose_spec.2.2.1

theorem contains {name : Name} (present : UnitDef.Present units name) :
    linked.program.contains name = true := by
  obtain ⟨u, member, rfl⟩ := present
  exact Program.contains_of_kind? (result.kind? member)

/-- A body is recorded where the program looks for its member. -/
theorem recorded {u : UnitDef} (member : u ∈ units) {selector : Selector} {body : Expr}
    (hasBody : u.HasBody selector body) :
    ∃ slot m, linked.program.slot? ⟨u.name, selector⟩ = some slot ∧
      linked.program.member? slot = some m ∧ m.Records selector body := by
  obtain ⟨summary, found, inside⟩ := result.find? u member
  obtain ⟨m, selected, records⟩ := hasBody.member? found
  obtain ⟨i, position, stands⟩ := Option.bind_eq_some_iff.mp selected
  refine ⟨⟨u.name, i⟩, m, ?_, Program.member?_eq_some_iff.mpr ⟨summary, inside, stands⟩, records⟩
  rw [Program.slot?, inside, Option.bind_some, position, Option.map_some]

theorem exists_slot? {m : MemberRef} (implemented : UnitDef.Implemented units m) :
    ∃ slot, linked.program.slot? m = some slot ∧
      linked.program.liveness? slot = some (.body slot) := by
  obtain ⟨u, member, named, body, hasBody⟩ := implemented
  obtain ⟨slot, summary, found, present, records⟩ := result.recorded member hasBody
  rw [named] at found
  exact ⟨slot, found, Program.liveness?_of_body
    (Program.abstract?_eq_some_iff.mpr ⟨summary, present, records.concrete⟩)⟩

omit result in
theorem keeps_of_shown {m : MemberRef} {slot : Slot} (found : linked.program.slot? m = some slot)
    (shown : linked.program.Shown linked.report (.body slot)) : linked.report.keeps m = true := by
  have kept : linked.report.keeps (linked.program.ref slot) = true := shown.2
  rwa [Program.ref_of_slot? found] at kept

theorem calls {owner : Name} {selector : Selector}
    (called : ∀ fact, linked.program.ExactCall owner selector fact →
      linked.program.Shown linked.report fact) :
    linked.CallsExactly units owner selector := by
  refine ⟨fun own implemented => ?_, fun fact call => (called fact call).2⟩
  obtain ⟨slot, found, live⟩ := result.exists_slot? implemented
  exact keeps_of_shown found (called _ (.declared (fun pub => absurd pub own) found live))

variable {m : Slot} (live : linked.program.Shown linked.report (.body m))
include live

theorem callsExactly {owner : Name} {selector : Selector}
    (edge : .callExact owner selector ∈ linked.program.dependencies m) :
    linked.CallsExactly units owner selector :=
  result.calls fun _ call => result.closed (.exactCall live edge call)

theorem constructs {cls ctor : Name}
    (edges : ∀ edge ∈ Edge.construction cls ctor, edge ∈ linked.program.dependencies m) :
    linked.Constructs units cls ctor := by
  rintro u member rfl allowed
  have instantiate := edges (.instantiate u.name) (by simp [Edge.construction])
  have call := edges (.callExact u.name (.ctor ctor)) (by simp [Edge.construction])
  constructor
  · have instantiable : u.kind.isInstantiable = true := by simpa [UnitKind.isInstantiable]
    exact (result.closed (.instantiate live instantiate (result.kind? member) instantiable)).2
  · exact (result.callsExactly live call).1 nofun

theorem initializes {owner : Name} (present : UnitDef.Present units owner)
    (accesses : (linked.program.dependencies m).Accesses owner) :
    linked.Keeps units ⟨owner, .staticInitializer⟩ := by
  intro implemented
  have initialized := result.closed (.access live accesses (result.contains present))
  obtain ⟨slot, found, starts⟩ := result.exists_slot? implemented
  exact keeps_of_shown found (result.closed (.initializer initialized found starts))

theorem reads {owner field : Name}
    (edge : .readField owner field ∈ linked.program.dependencies m) :
    linked.Reads units owner field := by
  intro present
  constructor
  · exact (result.closed (.read live edge (result.contains present))).2
  · exact result.initializes live present (.inl (Dependencies.mem_heads edge))

theorem writes {owner field : Name}
    (edge : .writeField owner field ∈ linked.program.dependencies m) :
    linked.Writes units owner field := by
  intro present
  constructor
  · exact (result.closed (.write live edge (result.contains present))).2
  · exact result.initializes live present (.inr (Dependencies.mem_heads edge))

theorem loadsModule {name : Name} (edge : .loadModule name ∈ linked.program.dependencies m) :
    linked.LoadsModule units name := by
  rintro u member rfl module
  have accessed := result.closed (.loadModule live edge (result.kind? member) module)
  have constructor : linked.CallsExactly units u.name (.ctor Name.defaultConstructor) :=
    result.calls fun _ call => result.closed (.moduleConstructor accessed call)
  exact ⟨accessed.2, (result.closed (.moduleInstance accessed)).2, constructor.1 nofun⟩

theorem dispatches {receiver method : Name}
    (edge : .call receiver method ∈ linked.program.dependencies m) :
    linked.Dispatches receiver method := by
  intro cls owner made inherits found
  obtain ⟨slot, body⟩ :=
    Option.isSome_iff_exists.mp (Program.hasBody_of_implementation? found)
  obtain ⟨declared, concrete⟩ := Program.body?_eq_some_iff.mp body
  have target := Program.target?_eq_some_iff.mpr ⟨owner, found, body⟩
  have shown : linked.program.Shown linked.report (.use cls .instantiated) :=
    ⟨Program.contains_of_implementation? found, made⟩
  exact keeps_of_shown declared (result.closed
    (.call live edge shown inherits target (Program.liveness?_of_body concrete)))

theorem invokes {receiver : Ty} {method : Name} {edges : List Edge}
    (extracted : receiver.callEdges method = .ok edges)
    (recorded : ∀ edge ∈ edges, edge ∈ linked.program.dependencies m) :
    linked.Invokes units receiver method := by
  cases receiver with
  | cls name | any | prim p =>
    obtain rfl := Except.ok.inj extracted
    exact result.dispatches live (recorded _ List.mem_cons_self)
  | array type =>
    intro other
    rw [Ty.callEdges, if_neg other] at extracted
    obtain rfl := Except.ok.inj extracted
    exact result.callsExactly live (recorded _ List.mem_cons_self)
  | nothing | null | noValue | record fields => trivial

theorem testsClass {target : TypeRef}
    (recorded : ∀ edge ∈ target.testEdges, edge ∈ linked.program.dependencies m) :
    linked.UsesClass units target .typeTested := by
  intro cls named present
  have edge := recorded (.testInstance cls) (by simp [TypeRef.testEdges, named])
  exact (result.closed (.testInstance live edge (result.contains present))).2

theorem usesClassData {target : TypeRef}
    (recorded : ∀ edge ∈ target.dataEdges, edge ∈ linked.program.dependencies m) :
    linked.UsesClass units target .dataAccessed := by
  intro cls named present
  have edge := recorded (.classData cls) (by simp [TypeRef.dataEdges, named])
  exact (result.closed (.classData live edge (result.contains present))).2

/-- A node whose edges are in the record of a live member is honoured. -/
theorem honours {e : Expr} {edges : List Edge} (extracted : e.node.edges = .ok edges)
    (recorded : ∀ edge ∈ edges, edge ∈ linked.program.dependencies m) : linked.Honours units e := by
  obtain ⟨node, ty⟩ := e
  cases node with
  | construct cls ctor arguments =>
    obtain rfl := Except.ok.inj extracted
    exact result.constructs live recorded
  | staticField owner field =>
    obtain rfl := Except.ok.inj extracted
    exact result.reads live (recorded _ List.mem_cons_self)
  | assign target value =>
    obtain ⟨inner, innerTy⟩ := target
    cases inner with
    | staticField owner field =>
      obtain rfl := Except.ok.inj extracted
      exact result.writes live (recorded _ List.mem_cons_self)
    | _ => trivial
  | loadModule name =>
    obtain rfl := Except.ok.inj extracted
    exact result.loadsModule live (recorded _ List.mem_cons_self)
  | call receiver method arguments => exact result.invokes live extracted recorded
  | callExact space receiver owner method arguments =>
    obtain rfl := Except.ok.inj extracted
    exact result.callsExactly live (recorded _ List.mem_cons_self)
  | callStatic owner method arguments =>
    obtain rfl := Except.ok.inj extracted
    exact result.callsExactly live (recorded _ List.mem_cons_self)
  | binary op left divisor =>
    intro division nonzero
    simp only [Node.edges, division, nonzero, Bool.not_false, Bool.and_self, if_true] at extracted
    obtain rfl := Except.ok.inj extracted
    exact result.constructs live recorded
  | isInstance value target | cast value target =>
    obtain rfl := Except.ok.inj extracted
    exact result.testsClass live recorded
  | newArray type lengths | arrayOf type elements =>
    obtain rfl := Except.ok.inj extracted
    exact result.usesClassData live recorded
  | literal value =>
    cases value with
    | classOf target =>
      obtain rfl := Except.ok.inj extracted
      exact result.usesClassData live recorded
    | _ => trivial
  | hostGlobal name =>
    obtain rfl := Except.ok.inj extracted
    exact (result.closed (.hostGlobal live (recorded _ List.mem_cons_self))).2
  | _ => trivial

end Of

end Linked

theorem Expr.ownEdges_eq_ok {e : Expr} {own : List Edge} (extracted : e.ownEdges = .ok own) :
    ∃ edges, e.node.edges = .ok edges ∧ edges ⊆ own := by
  unfold ownEdges at extracted
  split at extracted
  · next transient => exact ⟨[], by rw [transient]; rfl, List.nil_subset _⟩
  · obtain ⟨edges, found, rfl⟩ := map_eq_ok extracted
    exact ⟨edges, found, List.subset_append_right ..⟩

/-- Of each body that the report keeps, every node that is evaluated is honoured. -/
theorem link_honours {units : List UnitDef} (distinct : (units.map UnitDef.name).Nodup)
    {config : Config} {linked : Linked} (done : link units config = .ok linked)
    {u : UnitDef} (member : u ∈ units) {selector : Selector} {body : Expr}
    (hasBody : u.HasBody selector body) (kept : linked.report.keeps ⟨u.name, selector⟩ = true)
    {e : Expr} (occurs : body.Occurs e) : linked.Honours units e := by
  have result := Linked.of_link distinct done
  obtain ⟨slot, m, found, present, records⟩ := result.recorded member hasBody
  have live : linked.program.Shown linked.report (.body slot) := by
    constructor
    · exact Program.abstract?_eq_some_iff.mpr ⟨m, present, records.concrete⟩
    · rw [Program.named, Fact.map, Program.ref_of_slot? found]
      exact kept
  obtain ⟨edges, extracted, recorded⟩ := records.edges
  obtain ⟨own, ownExtracted, inside⟩ := occurs.edges extracted
  obtain ⟨nodeEdges, nodeExtracted, ownInside⟩ := Expr.ownEdges_eq_ok ownExtracted
  apply result.honours live nodeExtracted
  intro edge contributed
  rw [Program.dependencies, present]
  exact recorded edge (inside (ownInside contributed))

/-- A new instance of a class, made by its default constructor. -/
def newInstance : Expr := ⟨.construct ⟨21⟩ Name.defaultConstructor [], .cls ⟨21⟩⟩

/-- An exported static method stores the instance in a static field. -/
def storeInstance : UnitDef where
  name := ⟨20⟩
  kind := .plainClass
  methods := [{ selector := .static ⟨30⟩, isExported := true,
                body := some ⟨.assign ⟨.staticField ⟨21⟩ ⟨31⟩, .any⟩ newInstance, .noValue⟩ }]

def storedClass : UnitDef where
  name := ⟨21⟩
  kind := .plainClass
  methods := [{ selector := .ctor Name.defaultConstructor, body := some ⟨.skip, .noValue⟩ }]

theorem link_honours_newInstance :
    ∃ linked, link [storeInstance, storedClass] {} = .ok linked ∧
      linked.report.keeps ⟨⟨20⟩, .static ⟨30⟩⟩ = true ∧
      linked.Honours [storeInstance, storedClass] newInstance := by
  have summarized : UnitDef.summaries [storeInstance, storedClass] = .ok
      [{ name := ⟨20⟩, kind := .plainClass, isExported := true,
         members := [{ selector := .static ⟨30⟩, isExported := true,
                       dependencies := { writes := [(⟨21⟩, [⟨31⟩])],
                                         exactCalls := [(⟨21⟩, [.ctor Name.defaultConstructor])],
                                         instantiated := [⟨21⟩], mentioned := [⟨21⟩] } }] },
       { name := ⟨21⟩, kind := .plainClass,
         members := [{ selector := .ctor Name.defaultConstructor }] }] := by
    with_unfolding_all rfl
  refine ⟨_, by rw [link, summarized]; rfl, by decide, ?_⟩
  refine link_honours (by decide) (by rw [link, summarized]; rfl) List.mem_cons_self
    (.method List.mem_cons_self rfl) (by decide) (.value .root rfl)

end TreeShake
