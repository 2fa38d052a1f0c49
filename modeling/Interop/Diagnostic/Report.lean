import Interop.Diagnostic.Basic

/-!
# Reports

A report collects the diagnostics of one unit in the order in which they were found.  Nothing is
sorted or dropped, and an error does not keep later ones from being reported.
-/

namespace Interop

/-- The diagnostics found so far, first to last. -/
abbrev Report := List Diagnostic

namespace Report

/-- Add a diagnostic of any severity. -/
def push (r : Report) (d : Diagnostic) : Report := r ++ [d]

/-- Add an error at `span`. -/
def error (r : Report) (span : Span) (code : Diagnostic.Code) (message : String) : Report :=
  r.push (.point .error code span message)

/-- Add a warning at `span`. -/
def warning (r : Report) (span : Span) (code : Diagnostic.Code) (message : String) : Report :=
  r.push (.point .warning code span message)

/-- Add a finished diagnostic which has to be an error; there is no answer if it is not. -/
def pushError? (r : Report) (d : Diagnostic) : Option Report :=
  if d.isError then some (r.push d) else none

def errorCount (r : Report) : Nat := r.countP (·.isError)

def warningCount (r : Report) : Nat := r.countP (!·.isError)

def hasErrors (r : Report) : Bool := r.errorCount > 0

/-- What is said of a run that reported an error. -/
def failureText : String := "error(s) emitted"

end Report

end Interop
