import Interop.Pool
import Interop.Unit

/-!
# Batches

The units of a compilation are prepared on the same annotations, one after the other or side by
side on a pool.  A defect is shown in the unit that has it, and the others go on; a unit that breaks
off for another reason ends the batch.
-/

namespace Interop.Batch

/-- How a batch is run. -/
structure Settings where
  options : Options := {}
  /-- units are prepared on a pool -/
  parallel : Bool := true
deriving DecidableEq, Inhabited

/-- Settings from a list of words. -/
def Settings.parse (words : List String) : Except Options.Unknown Settings := do
  return { options := ← Options.parse words }

structure Source where
  name : String
  tree : Tree

/-- What came of a unit; a unit with a defect has no tree. -/
structure Outcome where
  name : String
  tree? : Option Tree
  report : Report

/-- Why a batch ends early. -/
inductive Stop where
  | missingSymbol
  | leftovers (found : List Leftover)
deriving DecidableEq, Inhabited

/-- What is done to prepare a unit of a batch. -/
def preparingOne (env : Env) (options : Options) (unit : Source) :
    Script (Except Stop Outcome) := do
  return match ← preparing env options unit.tree with
    | .ok prepared => .ok ⟨unit.name, some prepared.tree, prepared.report⟩
    | .error (.defect d) => .ok ⟨unit.name, none, [d.diagnostic]⟩
    | .error .missingSymbol => .error .missingSymbol
    | .error (.leftovers found) => .error (.leftovers found)

/-- Prepare a unit with no other beside it. -/
def prepareOne (env : Env) (options : Options) (unit : Source) (annotations : Annotations) :
    Except Stop Outcome × Annotations :=
  (preparingOne env options unit).run annotations

/-- Prepare units one after the other. -/
def prepareInOrder (env : Env) (options : Options) :
    List Source → Annotations → Except Stop (List Outcome) × Annotations
  | [], annotations => (.ok [], annotations)
  | unit :: units, annotations =>
    match prepareOne env options unit annotations with
    | (.error stop, annotations) => (.error stop, annotations)
    | (.ok outcome, annotations) =>
      let (rest, annotations) := prepareInOrder env options units annotations
      (rest.map (outcome :: ·), annotations)

/-- Prepare units side by side.  One that breaks off does so for all, once the others are
through. -/
def prepareOnPool (env : Env) (options : Options) (pool : Pool) (units : List Source)
    (annotations : Annotations) : Except Stop (List Outcome) × Annotations :=
  let (outcomes, annotations) := pool.run (units.map (preparingOne env options)) annotations
  (outcomes.mapM id, annotations)

/-- Prepare units, with outcomes in their order.  A pool is asked for where there are several and
`parallel` is set; if there is none to be had they are prepared one after the other. -/
def prepareAll (env : Env) (settings : Settings) (units : List Source) (annotations : Annotations)
    (pool? : Option Pool := some {}) : Except Stop (List Outcome) × Annotations :=
  match pool? with
  | some pool =>
    if settings.parallel && units.length > 1 then
      prepareOnPool env settings.options pool units annotations
    else prepareInOrder env settings.options units annotations
  | none => prepareInOrder env settings.options units annotations

/-! ## Summary -/

/-- Everything that was reported, unit after unit. -/
def report (outcomes : List Outcome) : Report := outcomes.flatMap (·.report)

def errorCount (outcomes : List Outcome) : Nat := (report outcomes).errorCount

def warningCount (outcomes : List Outcome) : Nat := (report outcomes).warningCount

def hasErrors (outcomes : List Outcome) : Bool := (report outcomes).hasErrors

end Interop.Batch
