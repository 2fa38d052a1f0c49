import Interop.Proofs.LineStarts

/-!
# Positions of offsets

The column of an offset counts the characters since the start of its line.  Any offset has

    the position after charsUpTo offset cs    between two characters, and from the end on
    that line, but column one                 inside a character

(`position_eq`).  This is so in a text of less than `2^32` bytes, but for the end of one that is as
long as can be and has all its characters in one line or is all newlines (`AtLimit`), where a number
overflows.  So offsets between characters resolve to the right position, in order, except there
(`resolves_iff`).  The position falls back from one offset to a later one if that is inside a
character or at the limit, and only then (`position_le_iff`).
-/

namespace Interop.Text

/-! ## Algorithm -/

/-- `a` is between two characters of a line, after its first, and `b` is inside a later character
of this line. -/
def FallsBack (source : String) (a b : Nat) : Prop :=
  ∃ (before between after : List Char) (c d : Char),
    source.toList = (before ++ [c] ++ between) ++ d :: after
      ∧ a = byteLength (before ++ [c]) ∧ c ≠ '\n' ∧ '\n' ∉ between
      ∧ byteLength (before ++ [c] ++ between) < b
      ∧ b < byteLength (before ++ [c] ++ between) + d.utf8Size

/-- The offset is the end of a text that has the largest index for a line or for a character there:
it is as long as can be, and one line or all newlines. -/
def AtLimit (source : String) (offset : Nat) : Prop :=
  source.length = UInt32.size - 1
    ∧ ('\n' ∉ source.toList ∨ ∀ c ∈ source.toList, c = '\n')
    ∧ source.utf8ByteSize ≤ offset

variable {source : String} {a b offset : Nat}

/-! ## Numbers of 32 bits -/

theorem toNat_ordinal {index : Nat} (h : index < UInt32.size - 1) :
    (ordinal index).toNat = index + 1 := by
  unfold ordinal
  rw [if_pos (by omega), UInt32.toNat_add, UInt32.toNat_ofNat']
  show (index % UInt32.size + 1) % UInt32.size = index + 1
  rw [Nat.mod_eq_of_lt (by omega : index < UInt32.size), Nat.mod_eq_of_lt (by omega)]

theorem toNat_ordinal_last : (ordinal (UInt32.size - 1)).toNat = 0 := rfl

theorem toNat_ordinal_sub_one {index : Nat} (h : index < UInt32.size) :
    (ordinal index - 1).toNat = index := by
  unfold ordinal
  rw [if_pos h, UInt32.add_sub_cancel, UInt32.toNat_ofNat']
  exact Nat.mod_eq_of_lt h

theorem ordinalOverflows_iff {index : Nat} :
    ordinalOverflows index ↔ index = UInt32.size - 1 := by
  simp [ordinalOverflows]

/-! ## Any offset -/

theorem charsUpTo_min (offset : Nat) (cs : List Char) :
    charsUpTo (min offset (byteLength cs)) cs = charsUpTo offset cs := by
  by_cases h : offset ≤ byteLength cs
  · rw [Nat.min_eq_left h]
  · have hle := Nat.le_of_not_le h
    rw [Nat.min_eq_right hle, charsUpTo_of_le (Nat.le_refl _), charsUpTo_of_le hle]

/-- The characters since the start of a line, unless the offset is inside a character. -/
theorem slice?_fullLines (source : String) (offset : Nat) :
    slice? (byteLength (fullLines (charsUpTo offset source.toList)))
        (min offset source.utf8ByteSize) source.toList
      = if byteLength (charsUpTo offset source.toList) = min offset source.utf8ByteSize
        then some (lastLine (charsUpTo offset source.toList)) else none := by
  obtain ⟨rest, hrest⟩ := prefix_charsUpTo offset source.toList
  have hbefore := charsUpTo_min offset source.toList
  rw [byteLength_toList] at hbefore
  generalize charsUpTo offset source.toList = cs at hrest hbefore
  have hsplit : source.toList = fullLines cs ++ (lastLine cs ++ rest) := by
    rw [← List.append_assoc, fullLines_append_lastLine, hrest]
  have hle : byteLength (fullLines cs) ≤ min offset source.utf8ByteSize := by
    have hfull := congrArg byteLength (fullLines_append_lastLine cs)
    have hstop := byteLength_charsUpTo_le (min offset source.utf8ByteSize) source.toList
    rw [byteLength_append] at hfull
    rw [hbefore] at hstop
    omega
  have hdrop : (fullLines cs ++ lastLine cs).drop (fullLines cs).length = lastLine cs :=
    List.drop_left
  rw [fullLines_append_lastLine] at hdrop
  have hslice := slice?_append (fullLines cs) (lastLine cs ++ rest) hle
  rwa [← hsplit, hbefore, hdrop] at hslice

theorem charsBefore_eq (hsize : source.utf8ByteSize < UInt32.size) (offset : Nat) :
    (LineTable.ofSource source).charsBefore offset
      = if byteLength (charsUpTo offset source.toList) = min offset source.utf8ByteSize
        then (lastLine (charsUpTo offset source.toList)).length else 0 := by
  have hstart : (LineTable.ofSource source).starts[(charsUpTo offset source.toList).count '\n']?
      = some (byteLength (fullLines (charsUpTo offset source.toList))) := by
    obtain ⟨rest, hrest⟩ := prefix_charsUpTo offset source.toList
    have h := lineStart_eq (charsUpTo offset source.toList) rest
    rwa [hrest, ← starts_ofSource hsize] at h
  unfold LineTable.charsBefore
  rw [lineIndex_eq hsize, toNat_ordinal_sub_one (count_charsUpTo_lt hsize offset), hstart]
  show (slice? (byteLength (fullLines (charsUpTo offset source.toList)))
    (min offset source.utf8ByteSize) source.toList).elim 0 List.length = _
  rw [slice?_fullLines]
  split
  next => rfl
  next => rfl

/-! ## The limit -/

/-- All of a text is needed for the largest index. -/
theorem eq_of_length_charsUpTo (hsize : source.utf8ByteSize < UInt32.size) (offset : Nat)
    (h : (charsUpTo offset source.toList).length = UInt32.size - 1) :
    charsUpTo offset source.toList = source.toList ∧ source.length = UInt32.size - 1
      ∧ source.utf8ByteSize ≤ offset := by
  obtain ⟨rest, hrest⟩ := prefix_charsUpTo offset source.toList
  have hle := byteLength_charsUpTo_le offset source.toList
  have hbytes := length_le_byteLength (charsUpTo offset source.toList)
  have hall := byteLength_toList source
  have hrestLength := length_le_byteLength rest
  have hsplit := congrArg byteLength hrest
  rw [byteLength_append] at hsplit
  have hnil : rest = [] := List.length_eq_zero_iff.1 (by omega)
  rw [hnil, List.append_nil] at hrest
  rw [hrest] at hsplit hle
  refine ⟨hrest, ?_, by omega⟩
  rw [← String.length_toList, ← hrest, h]

/-- **Where numbers overflow**: at the end of a text that is as long as can be, and one line or all
newlines. -/
theorem overflows_iff (hsize : source.utf8ByteSize < UInt32.size) (offset : Nat) :
    (LineTable.ofSource source).overflows offset ↔ AtLimit source offset := by
  have hlength := length_charsUpTo_le source offset
  unfold LineTable.overflows
  rw [Bool.or_eq_true, ordinalOverflows_iff, ordinalOverflows_iff, lineIndex_eq hsize,
    charsBefore_eq hsize]
  constructor
  · rintro (hline | hchars)
    · have hcount : (charsUpTo offset source.toList).count '\n' ≤ _ := List.count_le_length
      obtain ⟨hall, hlongest, hend⟩ := eq_of_length_charsUpTo hsize offset (by omega)
      refine ⟨hlongest, .inr fun c hc => ?_, hend⟩
      rw [hall, ← hlongest, ← String.length_toList] at hline
      exact (List.count_eq_length.1 hline c hc).symm
    · split at hchars
      next =>
        have hsplit := length_fullLines_add (charsUpTo offset source.toList)
        obtain ⟨hall, hlongest, hend⟩ := eq_of_length_charsUpTo hsize offset (by omega)
        have hfull : fullLines source.toList = [] :=
          List.length_eq_zero_iff.1 (by rw [← hall]; omega)
        have hlast := fullLines_append_lastLine source.toList
        rw [hfull, List.nil_append] at hlast
        exact ⟨hlongest, .inl (hlast ▸ newline_notMem_lastLine _), hend⟩
      next => cases hchars
  · rintro ⟨hlongest, hcase, hend⟩
    have hup : charsUpTo offset source.toList = source.toList :=
      charsUpTo_of_le (by rwa [byteLength_toList])
    rw [hup]
    rw [← String.length_toList] at hlongest
    rcases hcase with hnone | hall
    · right
      rw [if_pos (by rw [byteLength_toList, Nat.min_eq_right hend]), lastLine_of_notMem hnone,
        hlongest]
    · left
      rw [List.count_eq_length.2 fun c hc => (hall c hc).symm, hlongest]

/-- **Where positions are right.** -/
theorem fills_iff (source : String) (offset : Nat) :
    byteLength (charsUpTo offset source.toList) = min offset source.utf8ByteSize
      ↔ (String.Pos.Raw.mk offset).IsValid source ∨ source.utf8ByteSize ≤ offset := by
  have hle := byteLength_le_of_isPrefix (prefix_charsUpTo offset source.toList)
  rw [byteLength_toList] at hle
  rw [isValid_iff]
  constructor
  · intro h
    omega
  · rintro (h | h)
    · omega
    · rw [charsUpTo_of_le (by rwa [byteLength_toList]), byteLength_toList, Nat.min_eq_right h]

/-! ## Positions -/

/-- **The position of any offset** but for the limit. -/
theorem position_eq (hsize : source.utf8ByteSize < UInt32.size) (hlimit : ¬ AtLimit source offset) :
    (LineTable.ofSource source).position offset
      = ⟨(endPosition (charsUpTo offset source.toList)).line,
        if byteLength (charsUpTo offset source.toList) = min offset source.utf8ByteSize
        then (endPosition (charsUpTo offset source.toList)).column else 1⟩ := by
  rw [← overflows_iff hsize] at hlimit
  unfold LineTable.overflows at hlimit
  rw [Bool.or_eq_true, not_or, ordinalOverflows_iff, ordinalOverflows_iff] at hlimit
  obtain ⟨hline, hchars⟩ := hlimit
  have hcount := count_charsUpTo_lt hsize offset
  have hlast : (LineTable.ofSource source).charsBefore offset < UInt32.size := by
    rw [charsBefore_eq hsize]
    split
    next =>
      have hsplit := length_fullLines_add (charsUpTo offset source.toList)
      have hlength := length_charsUpTo_le source offset
      omega
    next => decide
  rw [lineIndex_eq hsize] at hline
  unfold LineTable.position LineTable.line
  rw [toNat_ordinal (by omega : (LineTable.ofSource source).charsBefore offset < _),
    lineIndex_eq hsize, toNat_ordinal (by omega), charsBefore_eq hsize]
  split
  next => rfl
  next => rfl

/-- At the limit the number that overflows is zero. -/
theorem position_of_atLimit (hsize : source.utf8ByteSize < UInt32.size)
    (h : AtLimit source offset) :
    (LineTable.ofSource source).position offset
      = if '\n' ∈ source.toList then ⟨0, 1⟩ else ⟨1, 0⟩ := by
  obtain ⟨hlongest, hcase, hend⟩ := h
  have hup : charsUpTo offset source.toList = source.toList :=
    charsUpTo_of_le (by rwa [byteLength_toList])
  rw [← String.length_toList] at hlongest
  unfold LineTable.position LineTable.line
  rw [lineIndex_eq hsize, charsBefore_eq hsize, hup,
    if_pos (by rw [byteLength_toList, Nat.min_eq_right hend])]
  rcases hcase with hnone | hall
  · rw [if_neg hnone, List.count_eq_zero.2 hnone, lastLine_of_notMem hnone, hlongest,
      toNat_ordinal_last]
    rfl
  · have hne : source.toList ≠ [] := by
      intro hnil
      rw [hnil] at hlongest
      cases hlongest
    have hlast : lastLine source.toList = [] := List.eq_nil_iff_forall_not_mem.2 fun c hc => by
      have hmem : c ∈ source.toList := (List.rtakeWhile_suffix _ _).subset hc
      exact newline_notMem_lastLine source.toList (hall c hmem ▸ hc)
    rw [if_pos (hall _ (List.head_mem hne) ▸ List.head_mem hne),
      List.count_eq_length.2 fun c hc => (hall c hc).symm, hlongest, hlast, toNat_ordinal_last]
    rfl

theorem position_of_fills (hsize : source.utf8ByteSize < UInt32.size)
    (hlimit : ¬ AtLimit source offset)
    (h : byteLength (charsUpTo offset source.toList) = min offset source.utf8ByteSize) :
    (LineTable.ofSource source).position offset
      = endPosition (charsUpTo offset source.toList) := by
  rw [position_eq hsize hlimit, if_pos h]

theorem position_atLimit_lt (hsize : source.utf8ByteSize < UInt32.size) (ha : ¬ AtLimit source a)
    (hb : AtLimit source b) :
    ((LineTable.ofSource source).position b).lex
      < ((LineTable.ofSource source).position a).lex := by
  have hcolumn : 0 < ((LineTable.ofSource source).position a).column := by
    rw [position_eq hsize ha]
    show 0 < if _ then _ else _
    split
    next => exact Nat.succ_pos _
    next => exact Nat.one_pos
  have hline : 0 < ((LineTable.ofSource source).position a).line := by
    rw [position_eq hsize ha]
    exact Nat.succ_pos _
  rw [position_of_atLimit hsize hb]
  refine Prod.Lex.toLex_lt_toLex.2 ?_
  split
  next => exact .inl hline
  next =>
    rcases Nat.lt_or_eq_of_le hline with hlt | heq
    · exact .inl hlt
    · exact .inr ⟨heq, hcolumn⟩

/-- A later offset between characters has a later position, but for the limit. -/
theorem position_lt_iff (hsize : source.utf8ByteSize < UInt32.size)
    (ha : (String.Pos.Raw.mk a).IsValid source) (hb : (String.Pos.Raw.mk b).IsValid source)
    (h : a < b) :
    ((LineTable.ofSource source).position a).lex < ((LineTable.ofSource source).position b).lex
      ↔ ¬ AtLimit source b := by
  have halimit : ¬ AtLimit source a := by
    rintro ⟨-, -, hend⟩
    have hle := byteLength_le_of_isPrefix (prefix_charsUpTo b source.toList)
    rw [(isValid_iff source b).1 hb, byteLength_toList] at hle
    omega
  constructor
  · exact fun hlt hlimit => lt_asymm hlt (position_atLimit_lt hsize halimit hlimit)
  · intro hblimit
    rw [position_of_fills hsize halimit ((fills_iff source a).2 (.inl ha)),
      position_of_fills hsize hblimit ((fills_iff source b).2 (.inl hb))]
    refine endPosition_lt (charsUpTo_mono (Nat.le_of_lt h) _) fun heq => Nat.ne_of_lt h ?_
    rw [← (isValid_iff source a).1 ha, heq]
    exact (isValid_iff source b).1 hb

/-! ## Falling back -/

/-- The position after a character of a line is right, and column one follows it there. -/
theorem fallsBack_iff (source : String) (h : a ≤ b) : FallsBack source a b
    ↔ byteLength (charsUpTo a source.toList) = min a source.utf8ByteSize
      ∧ lastLine (charsUpTo a source.toList) ≠ []
      ∧ (charsUpTo a source.toList).count '\n' = (charsUpTo b source.toList).count '\n'
      ∧ byteLength (charsUpTo b source.toList) ≠ min b source.utf8ByteSize := by
  have hsize := byteLength_toList source
  constructor
  · rintro ⟨before, between, after, c, d, hsource, rfl, hc, hbetween, hinside, hpast⟩
    have ha : charsUpTo (byteLength (before ++ [c])) source.toList = before ++ [c] := by
      rw [hsource, List.append_assoc (before ++ [c]), charsUpTo_byteLength]
    have hb : charsUpTo b source.toList = before ++ [c] ++ between := by
      rw [hsource, charsUpTo_inside _ after (Nat.le_of_lt hinside) hpast]
    rw [hsource, byteLength_append, byteLength_cons] at hsize
    rw [ha, hb]
    refine ⟨by omega, ?_, ?_, by omega⟩
    · rw [lastLine_concat, if_neg hc]
      exact List.append_ne_nil_of_right_ne_nil _ (List.cons_ne_nil c [])
    · exact (count_eq_append_iff _ _).2 hbetween
  · rintro ⟨hfills, hlast, hcount, hnot⟩
    obtain ⟨between, hbetween⟩ := charsUpTo_mono h source.toList
    obtain ⟨rest, hrest⟩ := prefix_charsUpTo b source.toList
    have hle := byteLength_charsUpTo_le b source.toList
    rcases List.eq_nil_or_concat' (charsUpTo a source.toList) with hnil | ⟨before, c, hbefore⟩
    · exact absurd (by rw [hnil]; rfl) hlast
    · cases rest with
      | nil =>
        -- At the end of the text there is no character to be inside of.
        rw [List.append_nil] at hrest
        rw [hrest] at hnot hle
        exact absurd (by omega) hnot
      | cons d after =>
        have hpast := lt_of_eq_charsUpTo_append hrest.symm
        rw [hbefore] at hfills hlast hcount hbetween
        rw [← hbetween] at hrest hpast hcount hnot hle
        rw [← hrest, byteLength_append, byteLength_cons] at hsize
        refine ⟨before, between, after, c, d, hrest.symm, by omega, fun hc => hlast ?_,
          (count_eq_append_iff _ _).1 hcount, by omega, hpast⟩
        rw [lastLine_concat, if_pos hc]

theorem position_le_of_fills (hsize : source.utf8ByteSize < UInt32.size) (h : a ≤ b)
    (ha : ¬ AtLimit source a) (hb : ¬ AtLimit source b)
    (hfills : byteLength (charsUpTo b source.toList) = min b source.utf8ByteSize) :
    ((LineTable.ofSource source).position a).lex
      ≤ ((LineTable.ofSource source).position b).lex := by
  have hend : ((LineTable.ofSource source).position a).lex
      ≤ (endPosition (charsUpTo a source.toList)).lex := by
    rw [position_eq hsize ha]
    refine Prod.Lex.toLex_le_toLex.2 (.inr ⟨rfl, ?_⟩)
    show (if _ then _ else _) ≤ _
    split
    next => exact Nat.le_refl _
    next => exact Nat.le_add_left 1 _
  rw [position_of_fills hsize hb hfills]
  exact le_trans hend (endPosition_mono (charsUpTo_mono h _))

theorem position_le_iff_of_not_fills (hsize : source.utf8ByteSize < UInt32.size) (h : a ≤ b)
    (ha : ¬ AtLimit source a) (hb : ¬ AtLimit source b)
    (hnot : byteLength (charsUpTo b source.toList) ≠ min b source.utf8ByteSize) :
    ((LineTable.ofSource source).position a).lex ≤ ((LineTable.ofSource source).position b).lex
      ↔ ¬ FallsBack source a b := by
  have hcount := (charsUpTo_mono h source.toList).sublist.count_le '\n'
  rw [fallsBack_iff source h, position_eq hsize ha, position_eq hsize hb, if_neg hnot,
    ← List.length_pos_iff]
  refine Prod.Lex.toLex_le_toLex.trans ?_
  simp only [endPosition]
  split
  next => omega
  next => omega

theorem not_atLimit_of_le (h : a ≤ b) (hb : ¬ AtLimit source b) : ¬ AtLimit source a :=
  fun ⟨hlongest, hcase, hend⟩ => hb ⟨hlongest, hcase, Nat.le_trans hend h⟩

/-! ## Top theorems -/

/-- **Offsets resolve to the right position**, in a text of less than `2^32` bytes and but for the
limit.  Before an offset between two characters, or past the end, are full lines and the start of a
line without a newline.  The position counts the newline bytes of the former and the characters of
the latter, and is later for a later offset.  At the limit, and nowhere else, a number overflows.
The line is the one that a binary search of the line starts gives. -/
theorem resolves_iff (source : String) (hsize : source.utf8ByteSize < UInt32.size) :
    (∀ offset, (String.Pos.Raw.mk offset).IsValid source ∨ source.utf8ByteSize ≤ offset →
      ∃ lines current after : String, source = lines ++ current ++ after
        ∧ (lines ++ current).utf8ByteSize = min offset source.utf8ByteSize
        ∧ (lines = "" ∨ ∃ front, lines = front ++ "\n") ∧ '\n' ∉ current.toList
        ∧ ((LineTable.ofSource source).position offset
            = ⟨1 + (source.toUTF8.data.toList.take offset).count 10, 1 + current.length⟩
          ↔ ¬ AtLimit source offset))
    ∧ (∀ a b, (String.Pos.Raw.mk a).IsValid source → (String.Pos.Raw.mk b).IsValid source → a < b →
      (((LineTable.ofSource source).position a).lex < ((LineTable.ofSource source).position b).lex
        ↔ ¬ AtLimit source b))
    ∧ (∀ offset, (LineTable.ofSource source).overflows offset ↔ AtLimit source offset)
    ∧ ∀ offset answer, SearchAnswers (LineTable.ofSource source).starts offset answer →
      ((LineTable.ofSource source).position offset).line
        = (ordinal (indexOfAnswer answer)).toNat := by
  refine ⟨fun offset h => ?_, fun a b => position_lt_iff hsize, overflows_iff hsize,
    fun offset answer h => by rw [← lineIndex_of_search hsize h]; rfl⟩
  have hfills := (fills_iff source offset).2 h
  obtain ⟨rest, hrest⟩ := prefix_charsUpTo offset source.toList
  have hsplit := fullLines_append_lastLine (charsUpTo offset source.toList)
  refine ⟨.ofList (fullLines (charsUpTo offset source.toList)),
    .ofList (lastLine (charsUpTo offset source.toList)), .ofList rest, ?_, ?_, ?_, ?_, ?_⟩
  · rw [← String.ofList_append, hsplit, ← String.ofList_append, hrest, String.ofList_toList]
  · rw [← String.ofList_append, hsplit, ← byteLength_toList, String.toList_ofList, hfills]
  · rcases fullLines_cases (charsUpTo offset source.toList) with hnil | ⟨front, hfront⟩
    · exact .inl (by rw [hnil, String.ofList_nil])
    · exact .inr ⟨.ofList front, by rw [hfront, String.ofList_append]⟩
  · rw [String.toList_ofList]
    exact newline_notMem_lastLine _
  · constructor
    · intro hposition hlimit
      rw [position_of_atLimit hsize hlimit] at hposition
      split at hposition
      next =>
        have hline := congrArg Position.line hposition
        simp only at hline
        omega
      next =>
        have hcolumn := congrArg Position.column hposition
        simp only at hcolumn
        omega
    · intro hlimit
      rw [position_of_fills hsize hlimit hfills, toList_toUTF8, count_take_encoded,
        String.length_ofList, Nat.add_comm 1, Nat.add_comm 1]
      rfl

/-- Two offsets beside characters of two bytes and of one, and one past the end. -/
theorem resolves_iff_accented :
    "aé\nb\n".utf8ByteSize < UInt32.size
      ∧ (String.Pos.Raw.mk 3).IsValid "aé\nb\n" ∧ (String.Pos.Raw.mk 5).IsValid "aé\nb\n"
      ∧ "aé\nb\n".utf8ByteSize ≤ 100
      ∧ SearchAnswers (LineTable.ofSource "aé\nb\n").starts 5 (.error 2)
      ∧ (∃ lines current after : String, "aé\nb\n" = lines ++ current ++ after
        ∧ '\n' ∉ current.toList
        ∧ (LineTable.ofSource "aé\nb\n").position 100 = ⟨3, 1 + current.length⟩)
      ∧ ((LineTable.ofSource "aé\nb\n").position 3).lex
        < ((LineTable.ofSource "aé\nb\n").position 5).lex
      ∧ ((LineTable.ofSource "aé\nb\n").position 5).line = 2 := by
  have h3 : (String.Pos.Raw.mk 3).IsValid "aé\nb\n" := (isValid_iff _ _).2 (by decide)
  have h5 : (String.Pos.Raw.mk 5).IsValid "aé\nb\n" := (isValid_iff _ _).2 (by decide)
  have hsearch : SearchAnswers (LineTable.ofSource "aé\nb\n").starts 5 (.error 2) :=
    ⟨by decide, by decide, by decide⟩
  have hlimit : ∀ offset, ¬ AtLimit "aé\nb\n" offset := fun offset h => absurd h.1 (by decide)
  obtain ⟨hright, hlater, -, hline⟩ := resolves_iff "aé\nb\n" (by decide)
  obtain ⟨lines, current, after, hsplit, -, -, hcurrent, hposition⟩ := hright 100 (.inr (by decide))
  exact ⟨by decide, h3, h5, by decide, hsearch,
    ⟨lines, current, after, hsplit, hcurrent, hposition.2 (hlimit 100)⟩,
    (hlater 3 5 h3 h5 (by decide)).2 (hlimit 5), hline 5 _ hsearch⟩

/-- A line of `n` characters. -/
def longLine (n : Nat) : String := .ofList (List.replicate n 'a')

theorem atLimit_longLine {n : Nat} (hn : n = UInt32.size - 1) :
    (longLine n).utf8ByteSize = n ∧ AtLimit (longLine n) n := by
  have hsize : (longLine n).utf8ByteSize = n := by
    rw [← byteLength_toList, longLine, String.toList_ofList, byteLength_replicate]
    exact Nat.mul_one n
  have hnone : '\n' ∉ (longLine n).toList := fun h => by
    rw [longLine, String.toList_ofList] at h
    cases List.eq_of_mem_replicate h
  refine ⟨hsize, ?_, .inl hnone, Nat.le_of_eq hsize⟩
  rw [longLine, String.length_ofList, List.length_replicate, hn]

/-- The longest line there is has column zero at its end, as the number `2^32` does not fit. -/
theorem longest_line_overflows :
    (longLine (UInt32.size - 1)).utf8ByteSize = UInt32.size - 1
      ∧ (LineTable.ofSource (longLine (UInt32.size - 1))).overflows (UInt32.size - 1)
      ∧ (LineTable.ofSource (longLine (UInt32.size - 1))).position (UInt32.size - 1) = ⟨1, 0⟩ := by
  obtain ⟨hbytes, hlimit⟩ := atLimit_longLine rfl
  have hsize : (longLine (UInt32.size - 1)).utf8ByteSize < UInt32.size := by
    rw [hbytes]
    decide
  have hnone : '\n' ∉ (longLine (UInt32.size - 1)).toList := fun h => by
    rw [longLine, String.toList_ofList] at h
    cases List.eq_of_mem_replicate h
  refine ⟨hbytes, (overflows_iff hsize _).2 hlimit, ?_⟩
  rw [position_of_atLimit hsize hlimit, if_neg hnone]

/-- **Positions fall back only inside a character and at the limit.**  Before the limit it is never a
line that falls back, and never at an offset between two characters or past the end. -/
theorem position_le_iff (source : String) (hsize : source.utf8ByteSize < UInt32.size) (h : a ≤ b) :
    (((LineTable.ofSource source).position a).lex ≤ ((LineTable.ofSource source).position b).lex
      ↔ ¬ FallsBack source a b ∧ ¬ (a < source.utf8ByteSize ∧ AtLimit source b))
    ∧ (¬ AtLimit source b → ((LineTable.ofSource source).position a).line
      ≤ ((LineTable.ofSource source).position b).line)
    ∧ ((String.Pos.Raw.mk b).IsValid source ∨ source.utf8ByteSize ≤ b →
      ¬ FallsBack source a b) := by
  have hright : byteLength (charsUpTo b source.toList) = min b source.utf8ByteSize →
      ¬ FallsBack source a b := fun hb hfalls => ((fallsBack_iff source h).1 hfalls).2.2.2 hb
  refine ⟨?_, fun hlimit => ?_, fun hb => hright ((fills_iff source b).2 hb)⟩
  · by_cases hlimit : AtLimit source b
    · have hnot : ¬ FallsBack source a b := hright ((fills_iff source b).2 (.inr hlimit.2.2))
      by_cases ha : a < source.utf8ByteSize
      · have hlt := position_atLimit_lt hsize (fun h => absurd h.2.2 (Nat.not_le.2 ha)) hlimit
        exact iff_of_false (not_le_of_gt hlt) fun h => h.2 ⟨ha, hlimit⟩
      · -- Both offsets are the end of the text.
        have halimit : AtLimit source a := ⟨hlimit.1, hlimit.2.1, Nat.le_of_not_lt ha⟩
        refine iff_of_true ?_ ⟨hnot, fun h => ha h.1⟩
        rw [position_of_atLimit hsize halimit, position_of_atLimit hsize hlimit]
    · have halimit := not_atLimit_of_le h hlimit
      rw [and_iff_left fun h => hlimit h.2]
      by_cases hb : byteLength (charsUpTo b source.toList) = min b source.utf8ByteSize
      · exact iff_of_true (position_le_of_fills hsize h halimit hlimit hb) (hright hb)
      · exact position_le_iff_of_not_fills hsize h halimit hlimit hb
  · rw [position_eq hsize (not_atLimit_of_le h hlimit), position_eq hsize hlimit]
    exact Nat.add_le_add_right ((charsUpTo_mono h source.toList).sublist.count_le _) 1

/-- From the end of the first character to the inside of the second. -/
theorem position_le_iff_accented :
    "aé".utf8ByteSize < UInt32.size ∧ 1 ≤ 2 ∧ FallsBack "aé" 1 2
      ∧ ¬ ((LineTable.ofSource "aé").position 1).lex
        ≤ ((LineTable.ofSource "aé").position 2).lex := by
  have hfalls : FallsBack "aé" 1 2 :=
    ⟨[], [], [], 'a', 'é', by decide, by decide, by decide, by decide, by decide, by decide⟩
  exact ⟨by decide, by decide, hfalls,
    fun hle => ((position_le_iff "aé" (by decide) (by decide)).1.1 hle).1 hfalls⟩

end Interop.Text
