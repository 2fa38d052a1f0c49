import Interop.Diagnostic.Report
import Interop.Text.Lines

/-!
# Listings

A listing shows a report against the text it is about:

    error[E7002]: Anonymous classes may not extend js.Any
      --> app/Main:3:11
       = note: ...

A label that only repeats the headline, or says nothing, is shown as a bare position.
-/

namespace Interop.Diagnostic

open Interop.Text (LineTable)

/-- One label: a mark, the place, and the message unless it says nothing new. -/
def Label.listing (lines : LineTable) (name headline : String) (l : Label) : String :=
  let p := lines.position l.span.start
  let mark := if l.isPrimary then "-->" else ":::"
  let place := s!"  {mark} {name}:{p.line}:{p.column}"
  if l.message = "" ∨ l.message = headline then place ++ "\n" else s!"{place}: {l.message}\n"

def listing (lines : LineTable) (name : String) (d : Diagnostic) : String :=
  s!"{d.severity.text}[{d.code.text}]: {d.message}\n"
    ++ String.join (d.labels.map (·.listing lines name d.message))
    ++ String.join (d.notes.map fun n => s!"   = note: {n}\n")

end Interop.Diagnostic

/-- The listing of a report on the unit `name` with the text `source`. -/
def Interop.Report.listing (name source : String) (r : Report) : String :=
  let lines := Text.LineTable.ofSource source
  String.join (r.map (·.listing lines name))
