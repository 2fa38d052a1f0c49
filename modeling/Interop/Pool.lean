import Interop.Script

/-!
# Pools

A pool runs scripts side by side.  Who makes the next access is up to the pool: its `turns` are any
list of numbers of scripts, and each turn is one access.  Those that are not through after the last
turn go on one after the other, so every way to mix the accesses of the scripts is that of some
list of turns.
-/

namespace Interop

/-- A pool, by the turns that it gives. -/
structure Pool where
  turns : List Nat := []
deriving DecidableEq, Inhabited

namespace Pool

variable {α : Type}

/-- Each turn is an access of the script with that number.  One that is through, or that there is
not, passes. -/
def takeTurns : List Nat → List (Script α) → Annotations → List (Script α) × Annotations
  | [], scripts, annotations => (scripts, annotations)
  | turn :: turns, scripts, annotations =>
    match scripts[turn]? with
    | none => takeTurns turns scripts annotations
    | some script =>
      let (script, annotations) := script.step annotations
      takeTurns turns (scripts.set turn script) annotations

/-- Every script to its end, one after the other. -/
def finish : List (Script α) → Annotations → List α × Annotations
  | [], annotations => ([], annotations)
  | script :: scripts, annotations =>
    let (a, annotations) := script.run annotations
    let (as, annotations) := finish scripts annotations
    (a :: as, annotations)

/-- All scripts from beginning to end. -/
def run (pool : Pool) (scripts : List (Script α)) (annotations : Annotations) :
    List α × Annotations :=
  let (scripts, annotations) := takeTurns pool.turns scripts annotations
  finish scripts annotations

end Pool

end Interop
