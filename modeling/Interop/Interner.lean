/-!
# Numbered strings

An interner hands out consecutive numbers to the strings it is shown.  A string keeps its number,
and the empty string has number zero from the start.  Numbers are found by an index of the strings,
and strings by their place in a row; a number has 32 bits.
-/

namespace Interop

/-- The strings seen so far. -/
structure Interner where
  /-- each string with its number, the latest first -/
  numbers : List (String × Nat)
  /-- the strings in the order of their numbers -/
  strings : Array String
deriving DecidableEq

namespace Interner

/-- The last number there is. -/
def lastNumber : Nat := UInt32.size - 1

/-- Only the empty string is numbered. -/
def new : Interner := ⟨[("", 0)], #[""]⟩

instance : Inhabited Interner := ⟨new⟩

/-- The number of `s`, which is the next free one if `s` is new.  When all numbers are in use, new
strings share the last. -/
def intern (t : Interner) (s : String) : Nat × Interner :=
  match t.numbers.lookup s with
  | some n => (n, t)
  | none =>
    let n := min t.strings.size lastNumber
    (n, ⟨(s, n) :: t.numbers, t.strings.push s⟩)

/-- The string with number `n`; the empty string if there is none. -/
def lookup (t : Interner) (n : Nat) : String := t.strings[n]?.getD ""

def size (t : Interner) : Nat := t.strings.size

/-- No string but the empty one is numbered. -/
def isEmpty (t : Interner) : Bool := t.size ≤ 1

end Interner

end Interop
