import Mathlib.Data.Set.Insert
import TreeShake.Proofs.Liveness
import TreeShake.Proofs.Lookup
import TreeShake.Proofs.Worklist

set_option autoImplicit false

/-!
What a state has to see to. A fact in a state is a duty: its consequences have to get into the state
too. An operation writes a fact down first and sees to its consequences afterwards, and in between
it calls other operations. They stop early at facts that are known already, whether or not their
consequences are there.

So each operation is proved for every set of duties that are left open by those who called it: it
leaves no other duty open, and has its own effect. Between the steps of a run no duty is open.
-/

namespace TreeShake

/-- What has consequences. The pair of a call and a class below its receiver is a duty of its own:
either of the two may come last. -/
inductive Duty where
  | use (name : Name) (use : Use)
  | member (m : Slot)
  | fields (owner : Name)
  | call (receiver method : Name)
  | dispatch (receiver method cls : Name)
  | expansion (m : Slot)

namespace State

variable (p : Program) (o : Options)

/-- The member is on its way, if it is declared. -/
def Scheduled (m : Slot) (s : State) : Prop :=
  (p.member? m).isSome = true → s.progress.get m ≠ .unseen

def Lists (defect : Defect) (s : State) : Prop :=
  o.missing = .report → Diagnostic.Listed s.diagnostics.entries defect

def Mentions (defect : Defect) (referrer : Referrer) (s : State) : Prop :=
  o.missing = .report → Diagnostic.Mentioned s.diagnostics.entries defect referrer

/-- The effect is there if the unit is, and otherwise its absence is reported. -/
def Ensured (name : Name) (referrer : Referrer) (effect : State → Prop) (s : State) : Prop :=
  if p.contains name then effect s else s.Mentions o (.missingUnit name) referrer

def Resolved (cls method : Name) (s : State) : Prop :=
  match p.target? cls method with
  | some m => s.Scheduled p m
  | none => p.isHostProvided cls = false → s.Lists o (.missingMember ⟨cls, .method method⟩)

def Answered (owner : Name) (selector : Selector) (s : State) : Prop :=
  match p.exactTarget? owner selector with
  | some m => s.Scheduled p m
  | none =>
    if p.hostAnswers owner selector then s.has owner .reached = true
    else s.Lists o (.missingMember ⟨owner, selector⟩)

def Instantiated (cls : Name) (referrer : Referrer) (s : State) : Prop :=
  ∀ kind, p.kind? cls = some kind →
    if kind.isInstantiable then s.has cls .instantiated = true
    else s.Mentions o (.notInstantiable cls) referrer

def Loaded (name : Name) (referrer : Referrer) (s : State) : Prop :=
  ∀ kind, p.kind? name = some kind →
    if kind.isModule then s.has name .moduleAccessed = true
    else s.Mentions o (.notAModule name) referrer

def Followed (edge : Edge) (referrer : Referrer) (s : State) : Prop :=
  match edge with
  | .readField owner field => s.Ensured p o owner referrer fun s =>
    field ∈ (s.fields .read).get owner
  | .writeField owner field => s.Ensured p o owner referrer fun s =>
    field ∈ (s.fields .write).get owner
  | .call receiver method => s.Ensured p o receiver referrer fun s => s.called receiver method = true
  | .callExact owner target => s.Ensured p o owner referrer (Answered p o owner target)
  | .instantiate cls => s.Ensured p o cls referrer (Instantiated p o cls referrer)
  | .loadModule cls => s.Ensured p o cls referrer (Loaded p o cls referrer)
  | .testInstance cls => s.Ensured p o cls referrer fun s => s.has cls .typeTested = true
  | .classData cls => s.Ensured p o cls referrer fun s => s.has cls .dataAccessed = true
  | .mention cls => s.Ensured p o cls referrer fun _ => True
  | .hostGlobal name => name ∈ s.hostGlobals

def Met (demand : Demand) (referrer : Referrer) (s : State) : Prop :=
  match demand with
  | .unit name => s.Ensured p o name referrer fun _ => True
  | .code name => s.Ensured p o name referrer fun s => s.has name .initialized = true
  | .edge edge => s.Followed p o edge referrer

/-- A reached unit has its parents reached, and what it names is required. -/
def Supported (name : Name) (s : State) : Prop :=
  (∀ parent, p.HasParent name parent → s.has parent .reached = true) ∧
    ∀ other ∈ p.parents name ++ p.fieldClasses name, s.Ensured p o other (.unit name) fun _ => True

/-- The duties that a state has. -/
def Owes (s : State) : Duty → Prop
  | .use name use => s.has name use = true
  | .member m => s.progress.get m ≠ .unseen
  | .fields owner => ∃ access, (s.fields access).get owner ≠ []
  | .call receiver method => s.called receiver method = true
  | .dispatch receiver method cls =>
    s.called receiver method = true ∧ cls ∈ s.subclasses.get receiver
  | .expansion m => s.progress.get m = .reached ∧ p.abstract? m = some false

/-- The consequences of a duty are there. -/
def Settles (s : State) : Duty → Prop
  | .use name use =>
    match use with
    | .reached => True
    | .typeTested | .dataAccessed => s.has name .reached = true
    | .initialized =>
      s.has name .reached = true ∧
        ∀ m, p.slot? ⟨name, .staticInitializer⟩ = some m → s.Scheduled p m
    | .instantiated =>
      (∃ kind, p.kind? name = some kind ∧ kind.isInstantiable = true) ∧
        s.has name .initialized = true ∧
        ∀ ancestor ∈ p.ancestors name,
          s.has ancestor .dataAccessed = true ∧ name ∈ s.subclasses.get ancestor
    | .moduleAccessed =>
      (∃ kind, p.kind? name = some kind ∧ kind.isModule = true) ∧
        s.has name .instantiated = true ∧
        s.Answered p o name (.ctor Name.defaultConstructor)
  | .member m =>
    (p.abstract? m = some false → s.has m.owner .initialized = true) ∧
      (p.abstract? m = some true → s.has m.owner .reached = true)
  | .fields owner => s.has owner .initialized = true
  | .call receiver method =>
    o.keepContracts = true → ∀ m, p.contract? receiver method = some m → s.Scheduled p m
  | .dispatch _ method cls => s.Resolved p o cls method
  | .expansion m =>
    ∀ demand ∈ (p.dependencies m).demands, s.Met p o demand (.member (p.ref m))

/-- Only the duties that are due are left open, and the lineages that are known are right. -/
structure Settled (due : Set Duty) (s : State) : Prop where
  fresh : s.Fresh p
  above : ∀ name, s.has name .reached = true → s.Supported p o name
  duties : ∀ duty, s.Owes p duty → duty ∈ due ∨ s.Settles p o duty

/-- No unit is in the middle of its activation. -/
def Idle (due : Set Duty) : Prop := ∀ name, Duty.use name .initialized ∉ due

/-- The operation leaves no further duty open and has the effect. -/
def Ensures (op : State → State) (effect : State → Prop) : Prop :=
  ∀ (due : Set Duty) (s : State), Idle due → Settled p o due s →
    Settled p o due (op s) ∧ effect (op s)

variable {p o}

/-! What is there stays there. -/

namespace Grows

variable {s t : State} (grows : Grows s t)
include grows

theorem called {receiver method : Name} (called : s.called receiver method = true) :
    t.called receiver method = true := by
  obtain ⟨site, member, same⟩ := s.called_iff.mp called
  exact t.called_iff.mpr ⟨site, (grows.calls receiver).subset member, same⟩

theorem scheduled {m : Slot} (scheduled : s.Scheduled p m) : t.Scheduled p m :=
  fun declared => grows.seen m (scheduled declared)

theorem lists {defect : Defect} (lists : s.Lists o defect) : t.Lists o defect :=
  fun reporting => grows.listed defect (lists reporting)

theorem mentions {defect : Defect} {referrer : Referrer} (mentions : s.Mentions o defect referrer) :
    t.Mentions o defect referrer :=
  fun reporting => grows.mentioned defect referrer (mentions reporting)

theorem ensured {name : Name} {referrer : Referrer} {effect : State → Prop}
    (ensured : s.Ensured p o name referrer effect) (lasting : effect s → effect t) :
    t.Ensured p o name referrer effect := by
  unfold Ensured at ensured ⊢
  split
  · next present =>
    rw [if_pos present] at ensured
    exact lasting ensured
  · next missing =>
    rw [if_neg missing] at ensured
    exact grows.mentions ensured

theorem resolved {cls method : Name} (resolved : s.Resolved p o cls method) :
    t.Resolved p o cls method := by
  unfold Resolved at resolved ⊢
  split at resolved
  · exact grows.scheduled resolved
  · exact fun known => grows.lists (resolved known)

theorem answered {owner : Name} {selector : Selector} (answered : s.Answered p o owner selector) :
    t.Answered p o owner selector := by
  unfold Answered at answered ⊢
  split at answered
  · exact grows.scheduled answered
  · split
    · next host =>
      rw [if_pos host] at answered
      exact grows.uses _ _ answered
    · next known =>
      rw [if_neg known] at answered
      exact grows.lists answered

theorem usedOrMentions {condition : Bool} {name : Name} {use : Use} {defect : Defect}
    {referrer : Referrer}
    (effect : if condition then s.has name use = true else s.Mentions o defect referrer) :
    if condition then t.has name use = true else t.Mentions o defect referrer := by
  cases condition with
  | true => exact grows.uses _ _ effect
  | false => exact grows.mentions effect

theorem instantiated {cls : Name} {referrer : Referrer}
    (instantiated : s.Instantiated p o cls referrer) : t.Instantiated p o cls referrer :=
  fun kind known => grows.usedOrMentions (instantiated kind known)

theorem loaded {name : Name} {referrer : Referrer} (loaded : s.Loaded p o name referrer) :
    t.Loaded p o name referrer :=
  fun kind known => grows.usedOrMentions (loaded kind known)

theorem followed {edge : Edge} {referrer : Referrer} (followed : s.Followed p o edge referrer) :
    t.Followed p o edge referrer := by
  unfold Followed at followed ⊢
  cases edge with
  | readField owner field => exact grows.ensured followed fun held => grows.fields .read owner held
  | writeField owner field => exact grows.ensured followed fun held => grows.fields .write owner held
  | call receiver method => exact grows.ensured followed grows.called
  | callExact owner target => exact grows.ensured followed grows.answered
  | instantiate cls => exact grows.ensured followed grows.instantiated
  | loadModule cls => exact grows.ensured followed grows.loaded
  | testInstance cls => exact grows.ensured followed (grows.uses _ _)
  | classData cls => exact grows.ensured followed (grows.uses _ _)
  | mention cls => exact grows.ensured followed id
  | hostGlobal name => exact grows.hostGlobals followed

theorem met {demand : Demand} {referrer : Referrer} (met : s.Met p o demand referrer) :
    t.Met p o demand referrer := by
  unfold Met at met ⊢
  cases demand with
  | unit name => exact grows.ensured met id
  | code name => exact grows.ensured met (grows.uses _ _)
  | edge edge => exact grows.followed met

theorem supported {name : Name} (supported : s.Supported p o name) : t.Supported p o name :=
  ⟨fun parent above => grows.uses _ _ (supported.1 parent above),
    fun other named => grows.ensured (supported.2 other named) id⟩

theorem settles {duty : Duty} (settles : s.Settles p o duty) : t.Settles p o duty := by
  cases duty with
  | use name use =>
    cases use with
    | reached => trivial
    | typeTested | dataAccessed => exact grows.uses _ _ settles
    | initialized =>
      exact ⟨grows.uses _ _ settles.1, fun m found => grows.scheduled (settles.2 m found)⟩
    | instantiated =>
      obtain ⟨kind, code, data⟩ := settles
      refine ⟨kind, grows.uses _ _ code, fun ancestor above => ?_⟩
      exact ⟨grows.uses _ _ (data ancestor above).1,
        (grows.subclasses ancestor).subset (data ancestor above).2⟩
    | moduleAccessed =>
      exact ⟨settles.1, grows.uses _ _ settles.2.1, grows.answered settles.2.2⟩
  | member m =>
    exact ⟨fun body => grows.uses _ _ (settles.1 body),
      fun declaration => grows.uses _ _ (settles.2 declaration)⟩
  | fields owner => exact grows.uses _ _ settles
  | call receiver method => exact fun kept m found => grows.scheduled (settles kept m found)
  | dispatch receiver method cls => exact grows.resolved settles
  | expansion m => exact fun demand member => grows.met (settles demand member)

end Grows

end State

end TreeShake
