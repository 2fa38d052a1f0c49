/-!
# Lines and columns

Reports know byte offsets; readers want lines and columns.  A `LineTable` holds the byte offset at
which each line starts.  Lines and columns count from one, and columns count characters.  An
offset inside a character has no column of its own and is given column one.

Offsets, lines and columns are numbers of 32 bits.  An offset that does not fit is given the largest
there is.  To count from one, one is added to an index, which wraps around to zero at the largest
index; where overflow is checked for, that is where the program stops (`LineTable.overflows`).
-/

namespace Interop.Text

/-- The offset after each newline of a text whose first byte has offset `offset`. -/
def lineStartsFrom (offset : Nat) : List Char → List Nat
  | [] => []
  | c :: cs =>
    let next := offset + c.utf8Size
    if c = '\n' then next :: lineStartsFrom next cs else lineStartsFrom next cs

/-- The first `n` bytes of a text, if they end between two characters. -/
def takeBytes? : Nat → List Char → Option (List Char)
  | 0, _ => some []
  | _ + 1, [] => none
  | n + 1, c :: cs =>
    if c.utf8Size ≤ n + 1 then (takeBytes? (n + 1 - c.utf8Size) cs).map (c :: ·) else none
termination_by _ cs => cs.length

/-- What follows the first `n` bytes of a text, if they end between two characters. -/
def dropBytes? : Nat → List Char → Option (List Char)
  | 0, cs => some cs
  | _ + 1, [] => none
  | n + 1, c :: cs =>
    if c.utf8Size ≤ n + 1 then dropBytes? (n + 1 - c.utf8Size) cs else none
termination_by _ cs => cs.length

/-- The characters between two byte offsets, if both lie between characters and are in order. -/
def slice? (start stop : Nat) (cs : List Char) : Option (List Char) :=
  if start ≤ stop then do takeBytes? (stop - start) (← dropBytes? start cs) else none

/-- The number of the thing with a given index, where the first has number one.  An index that does
not fit is taken for the last but one. -/
def ordinal (index : Nat) : UInt32 :=
  (if index < UInt32.size then .ofNat index else .ofNat (UInt32.size - 2)) + 1

/-- The addition in `ordinal` overflows. -/
def ordinalOverflows (index : Nat) : Bool := index = UInt32.size - 1

/-- A line and a column, both counted from one. -/
structure Position where
  line : Nat
  column : Nat
deriving DecidableEq, Inhabited

/-- A text with the offset of each line start, ascending.  The first line starts at zero. -/
structure LineTable where
  source : String
  starts : List Nat
deriving Inhabited

namespace LineTable

def ofSource (source : String) : LineTable where
  source
  starts := 0 :: (lineStartsFrom 0 source.toList).map (min · (UInt32.size - 1))

def lineCount (t : LineTable) : Nat := t.starts.length

/-- The index of the last line that starts at or before `offset`. -/
def lineIndex (t : LineTable) (offset : Nat) : Nat := t.starts.countP (· ≤ offset) - 1

/-- The line that `offset` falls in. -/
def line (t : LineTable) (offset : Nat) : Nat := (ordinal (t.lineIndex offset)).toNat

/-- How many characters of its line stand before `offset`; past the end counts as the end. -/
def charsBefore (t : LineTable) (offset : Nat) : Nat :=
  let lineStart := t.starts[(ordinal (t.lineIndex offset) - 1).toNat]?.getD 0
  let stop := min offset t.source.utf8ByteSize
  (slice? lineStart stop t.source.toList).elim 0 List.length

/-- Where `offset` is. -/
def position (t : LineTable) (offset : Nat) : Position :=
  ⟨t.line offset, (ordinal (t.charsBefore offset)).toNat⟩

/-- An addition overflows on the way to the position of `offset`. -/
def overflows (t : LineTable) (offset : Nat) : Bool :=
  ordinalOverflows (t.lineIndex offset) || ordinalOverflows (t.charsBefore offset)

end LineTable

end Interop.Text
