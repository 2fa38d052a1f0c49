import Interop.Symbol

/-!
# Annotations

Symbols do not change once they are declared, but their annotations do: the pass marks what it
accepts.  So annotations are kept beside the table, a list for each symbol.
-/

namespace Interop

/-- The annotations of each symbol, by its number. -/
structure Annotations where
  lists : Array (List Annotation)
deriving DecidableEq, Inhabited

namespace Annotations

/-- No annotations, for a table of `n` symbols. -/
def blank (n : Nat) : Annotations := ⟨Array.replicate n []⟩

/-- The annotations of a symbol; none if it is not in the table. -/
def of (a : Annotations) (r : SymbolRef) : List Annotation :=
  (r.bind fun id => a.lists[id]?).getD []

/-- Change the annotations of a symbol that is in the table. -/
def update (a : Annotations) (r : SymbolRef) (f : List Annotation → List Annotation) :
    Annotations :=
  match r with
  | none => a
  | some id => ⟨a.lists.modify id f⟩

/-- The symbol carries an annotation of the class `c`. -/
def has (a : Annotations) (r c : SymbolRef) : Bool := (a.of r).any (·.symbol = c)

/-- Put an annotation behind the others. -/
def add (a : Annotations) (r : SymbolRef) (x : Annotation) : Annotations :=
  a.update r (· ++ [x])

def set (a : Annotations) (r : SymbolRef) (xs : List Annotation) : Annotations :=
  a.update r fun _ => xs

/-- Put an annotation before the others, unless there is one of its class. -/
def prependOnce (a : Annotations) (r : SymbolRef) (x : Annotation) : Annotations :=
  if a.has r x.symbol then a else a.update r (x :: ·)

/-- Whether `prependOnce` would add the annotation. -/
def lacks (a : Annotations) (r c : SymbolRef) : Bool :=
  r.any (· < a.lists.size) && !a.has r c

end Annotations

end Interop
