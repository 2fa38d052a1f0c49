import Interop.Diagnostic.Report
import Interop.Options
import Interop.Pass.Defect
import Interop.Script
import Interop.Shorthand
import Interop.Typing.Retype

/-!
# The state of a pass

While it goes through a unit the pass writes reports, and keeps forwarders until the body they
belong to is finished.  These are its own; it marks declarations in the annotations, which it
shares with other units.  What was written before a failure stays written.
-/

namespace Interop.Pass

/-- Why a unit ends without a tree. -/
inductive Abort where
  | defect (d : Defect)
  /-- the unit names a symbol that is not in the table, where one has to be -/
  | missingSymbol
  /-- the result still has shorthands -/
  | leftovers (found : List Leftover)
deriving DecidableEq, Inhabited

/-- What the pass keeps to itself. -/
structure Notes where
  report : Report := []
  /-- forwarders that wait for the body of their owner, with that owner -/
  waiting : List (SymbolRef × Tree) := []

/-- A step of the pass. -/
abbrev PassM := ExceptT Abort (StateT Notes Script)

/-- Add to the report. -/
def emit (r : Report) : PassM Unit :=
  modify fun n => { n with report := n.report ++ r }

/-- The annotations at this moment. -/
def look : PassM Annotations := liftM (Script.look .done)

/-- Put `x` before the other annotations of `symbol`, unless there is one of its class. -/
def mark (symbol : SymbolRef) (x : Annotation) : PassM Unit :=
  liftM (Script.mark symbol x .done)

/-- Keep forwarders for the body of `owner`, behind those that wait already. -/
def keep (owner : SymbolRef) (forwarders : List Tree) : PassM Unit :=
  modify fun n => { n with waiting := n.waiting ++ forwarders.map (owner, ·) }

/-- The forwarders that wait for the body of `owner`, in the order in which they came.  They do so
no longer. -/
def release (owner : SymbolRef) : PassM (List Tree) :=
  modifyGet fun n =>
    let (ready, waiting) := n.waiting.partition (·.1 = owner)
    (ready.map (·.2), { n with waiting })

/-- Type a tree that `rule` built, for the place of a tree of type `expected`. -/
def retyped (env : Env) (rule : String) (t : Tree) (expected : Ty) : Except Abort Tree :=
  match Typing.retype env t expected with
  | .ok t => .ok t
  | .error (.illTyped cause) => .error (.defect (.illTyped rule t.span cause))
  | .error .missingSymbol => .error .missingSymbol

end Interop.Pass
