import Interop.Diagnostic.Basic
import Interop.Typing.Error

/-!
# Defects

A problem in user code is reported and the pass goes on.  A defect means that the pass, or the
tree it was handed, is broken: it ends the unit and is shown as an internal error.
-/

namespace Interop.Pass

inductive Defect where
  /-- the tree that a rule built does not type-check; `span` is that tree's -/
  | illTyped (rule : String) (span : Span) (cause : Typing.TypeError)
  /-- a rule met a tree that its condition should have kept out -/
  | unexpectedShape (rule expected found : String) (span : Span)
deriving DecidableEq, Inhabited

namespace Defect

def span : Defect → Span
  | illTyped _ span _ => span
  | unexpectedShape _ _ _ span => span

def rule : Defect → String
  | illTyped rule _ _ => rule
  | unexpectedShape rule _ _ _ => rule

def message : Defect → String
  | illTyped rule _ cause => s!"rewritten {rule} did not type-check: {cause.message}"
  | unexpectedShape rule expected found _ => s!"{rule} expected {expected}, found {found}"

/-- The internal error that stands for the defect. -/
def diagnostic (d : Defect) : Diagnostic where
  code := .internal
  severity := .error
  message := s!"internal compiler error: {d.message}"
  labels := [⟨d.span, "while preparing this for the foreign runtime", true⟩]
  notes := ["this is a bug in the interop preparation pass, not in your code"]

end Defect

end Interop.Pass
