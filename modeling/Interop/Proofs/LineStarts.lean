import Mathlib.Data.List.DropRight
import Mathlib.Data.Prod.Lex
import Interop.Proofs.Offsets

/-!
# Lines of a text

Lines are what newlines end.  The position after the characters `cs` is `endPosition cs`, on the
line after the newlines and in the column after the characters since; each further character moves
it on, so positions after longer texts are later.  In a table of the line starts

    starts up to offset   =  1 + newlines in charsUpTo offset cs
    the last of these     =  bytes of fullLines (charsUpTo offset cs)

and a binary search finds that line, whether it answers with a start or with the place for one.
-/

namespace Interop.Text

/-! ## Algorithm -/

/-- Positions in the order of the text: first by line, then by column. -/
def Position.lex (p : Position) : Nat ×ₗ Nat := toLex (p.line, p.column)

/-- What follows the last newline of a text. -/
def lastLine (cs : List Char) : List Char := cs.rtakeWhile (· ≠ '\n')

/-- A text up to its last newline. -/
def fullLines (cs : List Char) : List Char := cs.rdropWhile (· ≠ '\n')

/-- The position at the end of a text. -/
def endPosition (cs : List Char) : Position := ⟨cs.count '\n' + 1, (lastLine cs).length + 1⟩

/-- What a binary search for a number may answer: where it is, or where it would be inserted. -/
def SearchAnswers (xs : List Nat) (x : Nat) : Except Nat Nat → Prop
  | .ok i => xs[i]? = some x
  | .error i => i ≤ xs.length ∧ (∀ y ∈ xs.take i, y < x) ∧ ∀ y ∈ xs.drop i, x < y

/-- The index of what was found, or of the line start before. -/
def indexOfAnswer : Except Nat Nat → Nat
  | .ok i => i
  | .error i => i - 1

variable {source : String} {offset : Nat} {c : Char} {cs xs ys : List Char}

/-! ## The last line -/

theorem fullLines_append_lastLine (cs : List Char) : fullLines cs ++ lastLine cs = cs :=
  List.rdropWhile_append_rtakeWhile

theorem length_fullLines_add (cs : List Char) :
    (fullLines cs).length + (lastLine cs).length = cs.length := by
  rw [← List.length_append, fullLines_append_lastLine]

theorem newline_notMem_lastLine (cs : List Char) : '\n' ∉ lastLine cs := fun h => by
  simpa using List.mem_rtakeWhile_imp h

theorem lastLine_of_notMem (h : '\n' ∉ cs) : lastLine cs = cs :=
  List.rtakeWhile_eq_self_iff.2 fun c hc => by
    have hne : c ≠ '\n' := by
      rintro rfl
      exact h hc
    simpa using hne

theorem count_fullLines (cs : List Char) : (fullLines cs).count '\n' = cs.count '\n' := by
  have h := congrArg (List.count '\n') (fullLines_append_lastLine cs)
  rwa [List.count_append, List.count_eq_zero.2 (newline_notMem_lastLine cs), Nat.add_zero] at h

/-- Full lines end in a newline. -/
theorem fullLines_cases (cs : List Char) :
    fullLines cs = [] ∨ ∃ lines, fullLines cs = lines ++ ['\n'] := by
  by_cases h : fullLines cs = []
  · exact .inl h
  · have hlast : (fullLines cs).getLast h = '\n' :=
      not_not.1 fun hne => List.rdropWhile_last_not _ cs h (decide_eq_true hne)
    refine .inr ⟨(fullLines cs).dropLast, ?_⟩
    rw [← hlast, List.dropLast_append_getLast]

theorem lastLine_concat (cs : List Char) (c : Char) :
    lastLine (cs ++ [c]) = if c = '\n' then [] else lastLine cs ++ [c] := by
  unfold lastLine
  rw [List.rtakeWhile_concat]
  by_cases h : c = '\n' <;> simp [h]

theorem count_eq_append_iff (xs ys : List Char) :
    xs.count '\n' = (xs ++ ys).count '\n' ↔ '\n' ∉ ys := by
  rw [List.count_append, ← List.count_eq_zero]
  omega

theorem length_charsUpTo_le (source : String) (offset : Nat) :
    (charsUpTo offset source.toList).length ≤ source.utf8ByteSize := by
  rw [← byteLength_toList]
  exact Nat.le_trans (length_le_byteLength _)
    (byteLength_le_of_isPrefix (prefix_charsUpTo offset source.toList))

theorem count_charsUpTo_lt (hsize : source.utf8ByteSize < UInt32.size) (offset : Nat) :
    (charsUpTo offset source.toList).count '\n' < UInt32.size :=
  Nat.lt_of_le_of_lt (Nat.le_trans List.count_le_length (length_charsUpTo_le source offset)) hsize

/-! ## The end of a text -/

theorem endPosition_lt_concat (cs : List Char) (c : Char) :
    (endPosition cs).lex < (endPosition (cs ++ [c])).lex := by
  refine Prod.Lex.toLex_lt_toLex.2 ?_
  simp only [endPosition, lastLine_concat, List.count_append, List.count_singleton]
  by_cases h : c = '\n'
  · left
    simp [h]
  · right
    simp [h]

theorem endPosition_le_append (xs ys : List Char) :
    (endPosition xs).lex ≤ (endPosition (xs ++ ys)).lex := by
  induction ys using List.reverseRecOn with
  | nil => rw [List.append_nil]
  | append_singleton ys c ih =>
    rw [← List.append_assoc]
    exact le_of_lt (lt_of_le_of_lt ih (endPosition_lt_concat _ c))

theorem endPosition_mono (h : xs <+: ys) : (endPosition xs).lex ≤ (endPosition ys).lex := by
  obtain ⟨zs, rfl⟩ := h
  exact endPosition_le_append xs zs

/-- **Positions after longer texts are later.** -/
theorem endPosition_lt (h : xs <+: ys) (hne : xs ≠ ys) :
    (endPosition xs).lex < (endPosition ys).lex := by
  obtain ⟨zs, rfl⟩ := h
  cases zs with
  | nil => exact absurd (List.append_nil xs).symm hne
  | cons c zs =>
    have hrest := endPosition_le_append (xs ++ [c]) zs
    rw [List.append_assoc, List.singleton_append] at hrest
    exact lt_of_lt_of_le (endPosition_lt_concat xs c) hrest

/-! ## Line starts -/

theorem lineStartsFrom_append (offset : Nat) (xs ys : List Char) :
    lineStartsFrom offset (xs ++ ys)
      = lineStartsFrom offset xs ++ lineStartsFrom (offset + byteLength xs) ys := by
  induction xs generalizing offset with
  | nil => rfl
  | cons c xs ih =>
    rw [List.cons_append, lineStartsFrom, lineStartsFrom, ih, byteLength_cons, Nat.add_assoc]
    split
    next => rfl
    next => rfl

theorem length_lineStartsFrom (offset : Nat) (cs : List Char) :
    (lineStartsFrom offset cs).length = cs.count '\n' := by
  induction cs generalizing offset with
  | nil => rfl
  | cons c cs ih =>
    rw [lineStartsFrom]
    split
    next h => rw [List.length_cons, ih, h, List.count_cons_self]
    next h => rw [ih, List.count_cons_of_ne h]

theorem countP_lineStartsFrom (stop offset : Nat) (cs : List Char) :
    (lineStartsFrom offset cs).countP (· ≤ stop) = (charsUpTo (stop - offset) cs).count '\n' := by
  induction cs generalizing offset with
  | nil => rfl
  | cons c cs ih =>
    have hpos := c.utf8Size_pos
    rw [lineStartsFrom, charsUpTo, Nat.sub_sub]
    by_cases hle : c.utf8Size ≤ stop - offset
    · have hnext : offset + c.utf8Size ≤ stop := by omega
      rw [if_pos hle]
      split
      next h => rw [List.countP_cons_of_pos (by simpa using hnext), ih, h, List.count_cons_self]
      next h => rw [ih, List.count_cons_of_ne h]
    · -- The character goes past the offset, so no line starts up to there any more.
      have hnext : ¬ offset + c.utf8Size ≤ stop := by omega
      have hrest := ih (offset + c.utf8Size)
      rw [Nat.sub_eq_zero_of_le (Nat.le_of_not_le hnext), charsUpTo_zero] at hrest
      rw [if_neg hle]
      split
      next => rw [List.countP_cons_of_neg (by simpa using hnext), hrest]
      next => exact hrest

theorem lt_of_mem_lineStartsFrom {start : Nat} (h : start ∈ lineStartsFrom offset cs) :
    offset < start := by
  induction cs generalizing offset with
  | nil => cases h
  | cons c cs ih =>
    have hpos := c.utf8Size_pos
    rw [lineStartsFrom] at h
    split at h
    next =>
      rcases List.mem_cons.1 h with rfl | hmem
      · omega
      · exact Nat.lt_trans (by omega) (ih hmem)
    next => exact Nat.lt_trans (by omega) (ih h)

theorem pairwise_lineStartsFrom (offset : Nat) (cs : List Char) :
    (lineStartsFrom offset cs).Pairwise (· < ·) := by
  induction cs generalizing offset with
  | nil => exact .nil
  | cons c cs ih =>
    rw [lineStartsFrom]
    split
    next => exact .cons (fun _ => lt_of_mem_lineStartsFrom) (ih _)
    next => exact ih _

theorem le_of_mem_lineStartsFrom {start : Nat} (h : start ∈ lineStartsFrom offset cs) :
    start ≤ offset + byteLength cs := by
  induction cs generalizing offset with
  | nil => cases h
  | cons c cs ih =>
    rw [byteLength_cons, ← Nat.add_assoc]
    rw [lineStartsFrom] at h
    split at h
    next =>
      rcases List.mem_cons.1 h with rfl | hmem
      · exact Nat.le_add_right _ _
      · exact ih hmem
    next => exact ih h

/-- In a text of less than `2^32` bytes every line start fits. -/
theorem starts_ofSource (hsize : source.utf8ByteSize < UInt32.size) :
    (LineTable.ofSource source).starts = 0 :: lineStartsFrom 0 source.toList := by
  refine congrArg (0 :: ·) ((List.map_congr_left fun start hstart => ?_).trans (List.map_id _))
  have hle := le_of_mem_lineStartsFrom hstart
  rw [byteLength_toList, Nat.zero_add] at hle
  exact Nat.min_eq_left (by omega)

theorem pairwise_starts (hsize : source.utf8ByteSize < UInt32.size) :
    (LineTable.ofSource source).starts.Pairwise (· < ·) := by
  rw [starts_ofSource hsize]
  exact .cons (fun _ => lt_of_mem_lineStartsFrom) (pairwise_lineStartsFrom 0 _)

theorem lineIndex_eq (hsize : source.utf8ByteSize < UInt32.size) (offset : Nat) :
    (LineTable.ofSource source).lineIndex offset = (charsUpTo offset source.toList).count '\n' := by
  unfold LineTable.lineIndex
  rw [starts_ofSource hsize, List.countP_cons_of_pos (by simp), countP_lineStartsFrom, Nat.sub_zero,
    Nat.add_sub_cancel]

theorem countP_eq_of_split {xs : List Nat} {i x : Nat} (hi : i ≤ xs.length)
    (htake : ∀ y ∈ xs.take i, y ≤ x) (hdrop : ∀ y ∈ xs.drop i, x < y) :
    xs.countP (· ≤ x) = i := by
  rw [← List.take_append_drop i xs, List.countP_append,
    List.countP_eq_length.2 (by simpa using htake),
    List.countP_eq_zero.2 (by simpa using hdrop), List.length_take_of_le hi, Nat.add_zero]

/-- **Lines are found by binary search.** -/
theorem lineIndex_of_search (hsize : source.utf8ByteSize < UInt32.size)
    {answer : Except Nat Nat}
    (h : SearchAnswers (LineTable.ofSource source).starts offset answer) :
    (LineTable.ofSource source).lineIndex offset = indexOfAnswer answer := by
  have hsorted := pairwise_starts hsize
  unfold LineTable.lineIndex
  cases answer with
  | ok i =>
    obtain ⟨hi, hget⟩ := List.getElem?_eq_some_iff.1 h
    rw [List.pairwise_iff_getElem] at hsorted
    refine congrArg (· - 1) (countP_eq_of_split hi (fun y hy => ?_) fun y hy => ?_)
    · obtain ⟨j, hj, rfl⟩ := List.mem_take_iff_getElem.1 hy
      rcases Nat.lt_or_eq_of_le (show j ≤ i by omega) with hlt | rfl
      · exact hget ▸ Nat.le_of_lt (hsorted j i (by omega) hi hlt)
      · exact Nat.le_of_eq hget
    · obtain ⟨j, hj, rfl⟩ := List.mem_drop_iff_getElem.1 hy
      exact hget ▸ hsorted i (i + 1 + j) hi (by omega) (by omega)
  | error i =>
    obtain ⟨hi, htake, hdrop⟩ := h
    rw [countP_eq_of_split hi (fun y hy => Nat.le_of_lt (htake y hy)) hdrop]
    rfl

theorem lineStart_eq (cs ys : List Char) :
    (0 :: lineStartsFrom 0 (cs ++ ys))[cs.count '\n']? = some (byteLength (fullLines cs)) := by
  rw [← count_fullLines]
  nth_rewrite 1 [← fullLines_append_lastLine cs]
  rcases fullLines_cases cs with h | ⟨lines, h⟩
  · rw [h]
    rfl
  · rw [h, List.append_assoc, List.append_assoc, lineStartsFrom_append, List.count_append,
      List.count_singleton_self, List.getElem?_cons_succ,
      List.getElem?_append_right (by rw [length_lineStartsFrom]), length_lineStartsFrom,
      Nat.sub_self, Nat.zero_add, byteLength_append]
    rfl

end Interop.Text
