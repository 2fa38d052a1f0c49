import Interop.Diagnostic.Code
import Interop.Span

/-!
# Diagnostics

A diagnostic is a problem put into words: a headline with its code, labels that point into the
source, and notes.
-/

namespace Interop

namespace Diagnostic

/-- An error fails the unit it is reported in, a warning does not. -/
inductive Severity where
  | error
  | warning
deriving DecidableEq, Inhabited

def Severity.text : Severity → String
  | .error => "error"
  | .warning => "warning"

/-- A remark on a range of the source.  The primary ones say where the problem is. -/
structure Label where
  span : Span
  message : String
  isPrimary : Bool
deriving DecidableEq, Inhabited

end Diagnostic

structure Diagnostic where
  code : Diagnostic.Code
  severity : Diagnostic.Severity
  message : String := ""
  labels : List Diagnostic.Label := []
  notes : List String := []
deriving DecidableEq, Inhabited

namespace Diagnostic

/-- A problem of the given severity at `span`: one primary label, which repeats the headline. -/
def point (severity : Severity) (code : Code) (span : Span) (message : String) : Diagnostic :=
  { code, severity, message, labels := [⟨span, message, true⟩] }

/-- Something wrong, not yet tied to a place. -/
structure Problem where
  code : Code
  message : String
deriving DecidableEq, Inhabited

/-- The error that reports the problem at `span`. -/
def Problem.diagnostic (p : Problem) (span : Span) : Diagnostic := point .error p.code span p.message

def isError (d : Diagnostic) : Bool := d.severity = .error

/-- The range of the first primary label. -/
def primarySpan? (d : Diagnostic) : Option Span := (d.labels.find? (·.isPrimary)).map (·.span)

def Label.text (l : Label) : String :=
  let mark := if l.isPrimary then "-->" else "   "
  s!"\n  {mark} {l.span.text}: {l.message}"

/-- The diagnostic by itself, with byte offsets for positions. -/
def text (d : Diagnostic) : String :=
  s!"{d.severity.text} [{d.code.text}]: {d.message}"
    ++ String.join (d.labels.map Label.text)
    ++ String.join (d.notes.map fun n => s!"\n  = note: {n}")

end Diagnostic

end Interop
