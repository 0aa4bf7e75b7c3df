import TreeShake.Extraction.Unit
import TreeShake.Reachability.Report

set_option autoImplicit false

/-!
Linking a program, and linking it again after some of its units were changed. A changed unit absorbs
into its earlier summary, so that nothing is lost that unchanged code may still rely on.
-/

namespace TreeShake

/-- The summaries of a program and what is live in it. -/
structure Linked where
  summaries : List UnitSummary
  report : Report

def analyze (summaries : List UnitSummary) (config : Config) : Report :=
  (Program.ofUnits summaries).analyze config

def Linked.ofSummaries (summaries : List UnitSummary) (config : Config) : Linked :=
  ⟨summaries, analyze summaries config⟩

def link (units : List UnitDef) (config : Config) : Except UnitFault Linked :=
  (UnitDef.summaries units).map fun summaries => .ofSummaries summaries config

namespace UnitSummary

/-- Puts a unit in the place of the one with the same name, or at the end. -/
def replace (u : UnitSummary) : List UnitSummary → List UnitSummary
  | [] => [u]
  | other :: rest => if other.name = u.name then u :: rest else other :: replace u rest

/-- The last unit of each name, where the first one stood. -/
def latest (units : List UnitSummary) : List UnitSummary :=
  units.foldl (fun kept u => replace u kept) []

/-- The first unit of each name absorbs the changed one, and changed units with new names follow. -/
def update : List UnitSummary → List UnitSummary → List UnitSummary
  | [], changed => changed
  | u :: rest, changed =>
    match changed.find? fun newer => newer.name = u.name with
    | none => u :: update rest changed
    | some newer => u.absorb newer :: update rest (changed.filter fun other => other.name ≠ u.name)

end UnitSummary

def relink (earlier : List UnitSummary) (changed : List UnitDef) (config : Config) :
    Except UnitFault Linked :=
  (UnitDef.summaries changed).map fun summaries =>
    .ofSummaries (UnitSummary.update earlier (UnitSummary.latest summaries)) config

end TreeShake
