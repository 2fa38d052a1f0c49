import Interop.Pass.Traversal

/-!
# Units

A unit is prepared by one traversal from the top.  Whether it ends with a tree or not, what it
wrote into the annotations is kept.  `preparing` is what a unit does with the annotations, and
`prepare` does it with no other unit beside it.
-/

namespace Interop

/-- A prepared unit, with the report in the order of the traversal. -/
structure Prepared where
  tree : Tree
  report : Report

/-- What is done to prepare a unit.  As in a checked build, a result that still has shorthands is
not let through. -/
def preparing (env : Env) (options : Options) (t : Tree) : Script (Except Pass.Abort Prepared) := do
  let (result, notes) ← (Pass.transform env options t .root).run.run {}
  return do
    let tree ← result
    match env.leftovers tree with
    | [] => .ok { tree, report := notes.report }
    | found => .error (.leftovers found)

/-- Prepare a unit.  What is said of units that are prepared holds mostly of every run of the pass
that ends, also where the result is not checked. -/
def prepare (env : Env) (options : Options) (t : Tree) (annotations : Annotations) :
    Except Pass.Abort Prepared × Annotations :=
  (preparing env options t).run annotations

end Interop
