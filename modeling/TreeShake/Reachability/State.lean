import TreeShake.Ascending
import TreeShake.Program.Basic
import TreeShake.Reachability.Diagnostic
import TreeShake.Reachability.Root
import TreeShake.TotalMap

set_option autoImplicit false

/-!
What is known to be live at a moment of the analysis. Units are kept by name, and the members of a
unit by position. A unit's call log and the list of the instantiated classes below it grow
independently, and each entry of one has to meet each entry of the other.
-/

namespace TreeShake

/-- How a unit is used when the program runs. -/
inductive Use where
  /-- At least its place in the hierarchy is needed. -/
  | reached
  | instantiated
  | moduleAccessed
  | typeTested
  | dataAccessed
  /-- Code of the unit runs, and its static initializer before it. -/
  | initialized
  deriving DecidableEq, Repr

namespace Use

def all : List Use :=
  [reached, instantiated, moduleAccessed, typeTested, dataAccessed, initialized]

/-- The weight of a use in the sum that stands for a set of uses. -/
def weight : Use → Nat
  | reached => 1
  | instantiated => 2
  | moduleAccessed => 4
  | typeTested => 8
  | dataAccessed => 16
  | initialized => 32

def add (use : Use) (uses : List Use) : List Use :=
  if use ∈ uses then uses else use :: uses

@[simp] theorem mem_add {use added : Use} {uses : List Use} :
    use ∈ added.add uses ↔ use = added ∨ use ∈ uses := by
  unfold add
  split
  · next present =>
    constructor
    · exact .inr
    · rintro (rfl | member)
      · exact present
      · exact member
  · exact List.mem_cons

end Use

/-- A member is scheduled once, and expanded after that. An abstract one has nothing to expand. -/
inductive Progress where
  | unseen
  | pending
  | reached
  deriving DecidableEq, Repr, Inhabited

/-- A virtual call of a method, and who made it first. -/
structure CallSite where
  method : Name
  referrer : Referrer
  deriving DecidableEq, Repr

/-- The virtual calls on a unit in the order of discovery, and the set of the methods called. -/
structure CallLog where
  sites : List CallSite := []
  methods : List Name := []
  agree : ∀ method, method ∈ methods ↔ method ∈ sites.map CallSite.method := by simp

namespace CallLog

instance : EmptyCollection CallLog := ⟨{}⟩

def add (log : CallLog) (site : CallSite) : CallLog where
  sites := log.sites ++ [site]
  methods := Ascending.insert site.method log.methods
  agree method := by
    rw [Ascending.mem_insert, log.agree, List.map_append, List.mem_append, List.map_singleton,
      List.mem_singleton, or_comm]

end CallLog

/-- What code does to a static field. -/
inductive Access where
  | read
  | write
  deriving DecidableEq, Repr

structure State where
  uses : TotalMap Name (List Use) [] := ∅
  progress : TotalMap Slot Progress .unseen := ∅
  /-- The ancestors of a unit, from the first time they are asked for. -/
  lineages : Std.TreeMap Name (List Name) := ∅
  callLog : TotalMap Name CallLog ∅ := ∅
  /-- The instantiated classes at or below a unit, in the order of discovery. -/
  subclasses : TotalMap Name (List Name) [] := ∅
  reads : TotalMap Name (List Name) [] := ∅
  writes : TotalMap Name (List Name) [] := ∅
  hostGlobals : List Name := []
  /-- The members that are scheduled and not expanded yet. -/
  queue : List Slot := []
  diagnostics : DiagnosticLog := ∅

namespace State

instance : Inhabited State := ⟨{}⟩

variable (s : State)

def has (name : Name) (use : Use) : Bool := use ∈ s.uses.get name

def mark (name : Name) (use : Use) : State :=
  { s with uses := s.uses.modify name use.add }

theorem has_mark {name other : Name} {use wanted : Use} :
    (s.mark name use).has other wanted ↔ name = other ∧ wanted = use ∨ s.has other wanted := by
  simp only [has, mark, TotalMap.get_modify, decide_eq_true_eq]
  split
  · next same => simp [same]
  · next different => simp [different]

def report (o : Options) (defect : Defect) (referrer : Referrer) : State :=
  { s with
    diagnostics :=
      match o.missing with
      | .report => s.diagnostics.record defect referrer
      | .ignore => s.diagnostics }

/-- The ancestors of a unit, and the state that knows them from now on. -/
def lineage (p : Program) (name : Name) : List Name × State :=
  let asked := Hierarchy.remember p.find? p.size s.lineages name
  (asked.1, { s with lineages := asked.2 })

/-- The calls on a unit, in the order of discovery. -/
def calls (receiver : Name) : List CallSite := (s.callLog.get receiver).sites

@[simp] theorem calls_initial (receiver : Name) : ({} : State).calls receiver = [] := by
  rw [calls, TotalMap.get_empty]
  rfl

def called (receiver method : Name) : Bool := method ∈ (s.callLog.get receiver).methods

/-- The set of the methods called on a unit is in step with the log of the calls. -/
theorem called_iff {receiver method : Name} :
    s.called receiver method = true ↔ ∃ site ∈ s.calls receiver, site.method = method := by
  rw [called, decide_eq_true_eq, (s.callLog.get receiver).agree, List.mem_map, calls]

def logCall (receiver : Name) (site : CallSite) : State :=
  { s with callLog := s.callLog.modify receiver (·.add site) }

theorem calls_logCall (receiver name : Name) (site : CallSite) :
    (s.logCall receiver site).calls name =
      if receiver = name then s.calls name ++ [site] else s.calls name := by
  simp only [calls, logCall, TotalMap.get_modify]
  split <;> rfl

def addSubclass (ancestor cls : Name) : State :=
  { s with subclasses := s.subclasses.modify ancestor (· ++ [cls]) }

/-- The static fields of each unit that are accessed in this way. -/
def fields : Access → TotalMap Name (List Name) []
  | .read => s.reads
  | .write => s.writes

def accessField (access : Access) (owner field : Name) : State :=
  { s with
    reads :=
      match access with
      | .read => s.reads.modify owner (Ascending.insert field)
      | .write => s.reads
    writes :=
      match access with
      | .read => s.writes
      | .write => s.writes.modify owner (Ascending.insert field) }

theorem get_accessField (access kind : Access) (owner field name : Name) :
    ((s.accessField access owner field).fields kind).get name =
      if access = kind ∧ owner = name then Ascending.insert field ((s.fields kind).get name)
      else (s.fields kind).get name := by
  cases access <;> cases kind <;> simp [fields, accessField, TotalMap.get_modify]

theorem mem_accessField {access kind : Access} {owner field name other : Name} :
    other ∈ ((s.accessField access owner field).fields kind).get name ↔
      access = kind ∧ owner = name ∧ other = field ∨ other ∈ (s.fields kind).get name := by
  rw [get_accessField]
  split
  · next same => simp [same]
  · next different => simp [← and_assoc, different]

def useGlobal (name : Name) : State :=
  { s with hostGlobals := Ascending.insert name s.hostGlobals }

end State

end TreeShake
