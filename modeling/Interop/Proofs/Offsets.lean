import Mathlib.Data.List.Infix
import Interop.Text.Lines

/-!
# Characters and byte offsets

An offset counts bytes, and a character takes one to four of them.  `charsUpTo` gives the characters
that end at or before an offset.  Their bytes are all those before the offset exactly if it lies
between two characters or at an end of the text:

    offset between characters   ↔   byteLength (charsUpTo offset cs) = offset

Slices are cut at such offsets only (`slice?_eq_some_iff`).  A newline is a byte of its own that no
longer character has, so newlines may be counted among the bytes or among the characters before an
offset (`count_take_encoded`).
-/

namespace Interop.Text

/-! ## Algorithm -/

/-- How many bytes characters take. -/
def byteLength : List Char → Nat
  | [] => 0
  | c :: cs => c.utf8Size + byteLength cs

/-- The bytes of characters. -/
def encoded (cs : List Char) : List UInt8 := cs.flatMap String.utf8EncodeChar

/-- The characters that end at or before an offset. -/
def charsUpTo : Nat → List Char → List Char
  | _, [] => []
  | offset, c :: cs =>
    if c.utf8Size ≤ offset then c :: charsUpTo (offset - c.utf8Size) cs else []

variable {offset start stop : Nat} {c : Char} {cs xs ys zs : List Char}

/-! ## Lengths -/

theorem encoded_cons (c : Char) (cs : List Char) :
    encoded (c :: cs) = String.utf8EncodeChar c ++ encoded cs := List.flatMap_cons

@[simp] theorem byteLength_nil : byteLength [] = 0 := rfl

@[simp] theorem byteLength_cons (c : Char) (cs : List Char) :
    byteLength (c :: cs) = c.utf8Size + byteLength cs := rfl

@[simp] theorem byteLength_append (xs ys : List Char) :
    byteLength (xs ++ ys) = byteLength xs + byteLength ys := by
  induction xs with
  | nil => simp
  | cons c xs ih => rw [List.cons_append, byteLength_cons, byteLength_cons, ih, Nat.add_assoc]

theorem byteLength_replicate (n : Nat) (c : Char) :
    byteLength (List.replicate n c) = n * c.utf8Size := by
  induction n with
  | zero => rw [List.replicate_zero, byteLength_nil, Nat.zero_mul]
  | succ n ih => rw [List.replicate_succ, byteLength_cons, ih, Nat.succ_mul, Nat.add_comm]

theorem byteLength_le_of_isPrefix (h : xs <+: ys) : byteLength xs ≤ byteLength ys := by
  obtain ⟨zs, rfl⟩ := h
  rw [byteLength_append]
  exact Nat.le_add_right _ _

theorem length_le_byteLength (cs : List Char) : cs.length ≤ byteLength cs := by
  induction cs with
  | nil => exact Nat.le_refl 0
  | cons c cs ih =>
    have hpos := c.utf8Size_pos
    rw [List.length_cons, byteLength_cons]
    omega

theorem length_encoded (cs : List Char) : (encoded cs).length = byteLength cs := by
  induction cs with
  | nil => rfl
  | cons c cs ih =>
    rw [encoded_cons, List.length_append, String.length_utf8EncodeChar, ih, byteLength_cons]

theorem toList_toUTF8 (source : String) : source.toUTF8.data.toList = encoded source.toList := by
  show source.toByteArray.data.toList = _
  rw [← String.utf8Encode_toList]
  exact List.toList_data_toByteArray

theorem byteLength_toList (source : String) : byteLength source.toList = source.utf8ByteSize := by
  rw [← length_encoded, ← toList_toUTF8]
  rfl

/-! ## Characters before an offset -/

theorem charsUpTo_of_lt (h : offset < c.utf8Size) (cs : List Char) :
    charsUpTo offset (c :: cs) = [] := by
  rw [charsUpTo, if_neg (Nat.not_le.2 h)]

theorem charsUpTo_zero (cs : List Char) : charsUpTo 0 cs = [] := by
  cases cs with
  | nil => rfl
  | cons c cs => exact charsUpTo_of_lt c.utf8Size_pos cs

theorem charsUpTo_append (xs ys : List Char) (offset : Nat) :
    charsUpTo (byteLength xs + offset) (xs ++ ys) = xs ++ charsUpTo offset ys := by
  induction xs with
  | nil => simp
  | cons c xs ih =>
    have hrest : byteLength (c :: xs) + offset - c.utf8Size = byteLength xs + offset := by
      rw [byteLength_cons]
      omega
    rw [List.cons_append, charsUpTo, if_pos (by rw [byteLength_cons]; omega), hrest, ih,
      List.cons_append]

theorem charsUpTo_byteLength (xs ys : List Char) : charsUpTo (byteLength xs) (xs ++ ys) = xs := by
  have h := charsUpTo_append xs ys 0
  rwa [charsUpTo_zero, List.append_nil] at h

theorem charsUpTo_inside (xs ys : List Char) (hle : byteLength xs ≤ offset)
    (hlt : offset < byteLength xs + c.utf8Size) : charsUpTo offset (xs ++ c :: ys) = xs := by
  obtain ⟨n, rfl⟩ := Nat.exists_eq_add_of_le hle
  rw [charsUpTo_append, charsUpTo_of_lt (by omega), List.append_nil]

theorem charsUpTo_of_le (h : byteLength cs ≤ offset) : charsUpTo offset cs = cs := by
  obtain ⟨n, rfl⟩ := Nat.exists_eq_add_of_le h
  have h := charsUpTo_append cs [] n
  rwa [List.append_nil, charsUpTo, List.append_nil] at h

theorem prefix_charsUpTo (offset : Nat) (cs : List Char) : charsUpTo offset cs <+: cs := by
  fun_induction charsUpTo offset cs with
  | case1 => exact List.nil_prefix
  | case2 offset c cs hle ih => exact (List.prefix_cons_inj c).2 ih
  | case3 => exact List.nil_prefix

theorem byteLength_charsUpTo_le (offset : Nat) (cs : List Char) :
    byteLength (charsUpTo offset cs) ≤ offset := by
  fun_induction charsUpTo offset cs with
  | case1 => exact Nat.zero_le _
  | case2 offset c cs hle ih =>
    rw [byteLength_cons]
    omega
  | case3 => exact Nat.zero_le _

/-- A character that starts before an offset and is not among those up to there goes past it. -/
theorem lt_of_eq_charsUpTo_append (h : cs = charsUpTo offset cs ++ c :: ys) :
    offset < byteLength (charsUpTo offset cs) + c.utf8Size := by
  refine Nat.lt_of_not_le fun hle => ?_
  obtain ⟨n, hn⟩ := Nat.exists_eq_add_of_le hle
  have hnext := charsUpTo_append (charsUpTo offset cs ++ [c]) ys n
  rw [List.append_assoc, List.singleton_append, ← h, byteLength_append, byteLength_cons,
    byteLength_nil, Nat.add_zero, ← hn] at hnext
  have hlength := congrArg List.length hnext
  simp at hlength

theorem charsUpTo_mono {a b : Nat} (h : a ≤ b) (cs : List Char) :
    charsUpTo a cs <+: charsUpTo b cs := by
  induction cs generalizing a b with
  | nil => exact List.nil_prefix
  | cons c cs ih =>
    by_cases ha : c.utf8Size ≤ a
    · rw [charsUpTo, charsUpTo, if_pos ha, if_pos (Nat.le_trans ha h)]
      exact (List.prefix_cons_inj c).2 (ih (Nat.sub_le_sub_right h _))
    · rw [charsUpTo_of_lt (Nat.lt_of_not_le ha)]
      exact List.nil_prefix

/-- **Offsets between characters** are those that the characters up to there fill. -/
theorem isValid_iff (source : String) (offset : Nat) :
    (String.Pos.Raw.mk offset).IsValid source
      ↔ byteLength (charsUpTo offset source.toList) = offset := by
  rw [String.Pos.Raw.isValid_iff_exists_append]
  constructor
  · rintro ⟨s₁, s₂, rfl, h⟩
    obtain rfl : offset = byteLength s₁.toList := by
      rw [byteLength_toList]
      exact congrArg String.Pos.Raw.byteIdx h
    rw [String.toList_append, charsUpTo_byteLength]
  · intro h
    obtain ⟨rest, hrest⟩ := prefix_charsUpTo offset source.toList
    refine ⟨String.ofList (charsUpTo offset source.toList), String.ofList rest, ?_, ?_⟩
    · rw [← String.ofList_append, hrest, String.ofList_toList]
    · rw [String.Pos.Raw.ext_iff, String.byteIdx_rawEndPos, ← byteLength_toList,
        String.toList_ofList, h]

/-! ## Slices -/

theorem takeBytes?_eq (offset : Nat) (cs : List Char) : takeBytes? offset cs
    = if byteLength (charsUpTo offset cs) = offset then some (charsUpTo offset cs) else none := by
  fun_induction takeBytes? offset cs with
  | case1 cs => rw [charsUpTo_zero, byteLength_nil, if_pos rfl]
  | case2 n => rw [charsUpTo, byteLength_nil, if_neg (Nat.succ_ne_zero n).symm]
  | case3 n c cs hle ih =>
    have hiff : c.utf8Size + byteLength (charsUpTo (n + 1 - c.utf8Size) cs) = n + 1
        ↔ byteLength (charsUpTo (n + 1 - c.utf8Size) cs) = n + 1 - c.utf8Size := by omega
    rw [ih, charsUpTo, if_pos hle, byteLength_cons]
    simp only [hiff]
    split
    next => rfl
    next => rfl
  | case4 n c cs hgt =>
    rw [charsUpTo, if_neg hgt, byteLength_nil, if_neg (Nat.succ_ne_zero n).symm]

theorem dropBytes?_append (xs ys : List Char) :
    dropBytes? (byteLength xs) (xs ++ ys) = some ys := by
  induction xs with
  | nil => rw [byteLength_nil, dropBytes?, List.nil_append]
  | cons c xs ih =>
    obtain ⟨n, hn⟩ := Nat.exists_eq_succ_of_ne_zero
      (Nat.ne_of_gt (Nat.add_pos_left c.utf8Size_pos (byteLength xs)))
    have hrest : n + 1 - c.utf8Size = byteLength xs := by omega
    rw [List.cons_append, byteLength_cons, hn, dropBytes?, if_pos (by omega), hrest, ih]

/-- A slice from between two characters goes up to an offset between two characters. -/
theorem slice?_append (xs ys : List Char) (h : byteLength xs ≤ stop) :
    slice? (byteLength xs) stop (xs ++ ys)
      = if byteLength (charsUpTo stop (xs ++ ys)) = stop
        then some ((charsUpTo stop (xs ++ ys)).drop xs.length) else none := by
  obtain ⟨n, rfl⟩ := Nat.exists_eq_add_of_le h
  unfold slice?
  rw [if_pos h, dropBytes?_append, Option.bind_eq_bind, Option.bind_some, Nat.add_sub_cancel_left,
    takeBytes?_eq, charsUpTo_append, byteLength_append, List.drop_left]
  simp only [Nat.add_left_cancel_iff]

/-! ## Newlines -/

/-- The bytes of longer characters are `128` at least. -/
theorem mem_utf8EncodeChar_newline : 10 ∈ String.utf8EncodeChar c ↔ c = '\n' := by
  have hc : c = '\n' ↔ c.val.toNat = 10 := by
    rw [Char.ext_iff, ← UInt32.toNat_inj]
    rfl
  have hbyte : ∀ n, (10 : UInt8) = UInt8.ofNat n ↔ n % 256 = 10 := fun n => by
    rw [← UInt8.toNat_inj, UInt8.toNat_ofNat']
    exact eq_comm
  rw [hc]
  simp only [String.utf8EncodeChar]
  generalize c.val.toNat = v
  split
  next =>
    simp only [List.mem_singleton, hbyte]
    omega
  next =>
    split
    next =>
      simp only [List.mem_cons, List.not_mem_nil, or_false, hbyte]
      omega
    next =>
      split
      next =>
        simp only [List.mem_cons, List.not_mem_nil, or_false, hbyte]
        omega
      next =>
        simp only [List.mem_cons, List.not_mem_nil, or_false, hbyte]
        omega

/-- **Newline bytes are newlines.** -/
theorem count_take_encoded (offset : Nat) (cs : List Char) :
    ((encoded cs).take offset).count 10 = (charsUpTo offset cs).count '\n' := by
  induction cs generalizing offset with
  | nil => simp [encoded, charsUpTo]
  | cons c cs ih =>
    rw [encoded_cons, List.take_append, List.count_append, String.length_utf8EncodeChar, ih]
    by_cases hc : c = '\n'
    · subst hc
      cases offset with
      | zero => simp [charsUpTo_zero]
      | succ n =>
        have hnext : charsUpTo (n + 1) ('\n' :: cs) = '\n' :: charsUpTo (n + 1 - 1) cs := rfl
        rw [hnext, List.count_cons_self]
        show List.count 10 (List.take (n + 1) [10]) + _ = _
        simp [Nat.add_comm, show '\n'.utf8Size = 1 from rfl]
    · have hnone : (List.take offset (String.utf8EncodeChar c)).count 10 = 0 :=
        List.count_eq_zero.2 fun h => hc (mem_utf8EncodeChar_newline.1 (List.mem_of_mem_take h))
      rw [hnone, Nat.zero_add, charsUpTo]
      split
      next => rw [List.count_cons_of_ne hc]
      next hle => rw [Nat.sub_eq_zero_of_le (Nat.le_of_not_le hle), charsUpTo_zero]

end Interop.Text
