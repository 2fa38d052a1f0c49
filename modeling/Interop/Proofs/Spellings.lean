import Mathlib.Data.Nat.Digits.Defs
import Interop.Name

/-!
# Spellings of names

An encoded name spells each character as itself, by the code of an operator, or by the hexadecimal
digits of its code point, in digits of either case:

    x   x   $u0078          +   +   $plus   $u002b   $u002B          $   $u0024

The escapes have no end mark.  They can be told apart all the same: no code starts another, and none
goes on like a code point.  So decoding undoes every choice of spellings, whatever follows, and what
an escape yields is not read again (`decode_spellings`).
-/

namespace Interop.Name

/-! ## Algorithm -/

/-- The hexadecimal digit of a value, in either case. -/
def IsHexDigit (v : Nat) (c : Char) : Prop :=
  v < 16 ∧ (c = v.digitChar ∨ c = v.digitChar.toUpper)

instance (v : Nat) (c : Char) : Decidable (IsHexDigit v c) :=
  inferInstanceAs (Decidable (_ ∧ _))

/-- What a character may be written as in an encoded name. -/
inductive Spells : Char → String → Prop
  | plain {c : Char} : c ≠ '$' → Spells c (String.singleton c)
  | operator {c : Char} {code : String} : (code, c) ∈ operatorCodes → Spells c ("$" ++ code)
  | codePoint {c d₃ d₂ d₁ d₀ : Char} {v₃ v₂ v₁ v₀ : Nat} :
      IsHexDigit v₃ d₃ → IsHexDigit v₂ d₂ → IsHexDigit v₁ d₁ → IsHexDigit v₀ d₀ →
      c.toNat = Nat.ofDigits 16 [v₀, v₁, v₂, v₃] →
      Spells c (String.ofList ['$', 'u', d₃, d₂, d₁, d₀])

variable {c d₃ d₂ d₁ d₀ : Char} {v v₃ v₂ v₁ v₀ : Nat}

/-! ## Code points -/

theorem hexValue?_of_isHexDigit (h : IsHexDigit v c) : hexValue? c = some v := by
  have hdigits : ∀ v < 16, hexValue? v.digitChar = some v
      ∧ hexValue? v.digitChar.toUpper = some v := by decide
  obtain ⟨hlt, rfl | rfl⟩ := h
  · exact (hdigits v hlt).1
  · exact (hdigits v hlt).2

theorem charOfCode?_toNat (c : Char) : charOfCode? c.toNat = some c := by
  have hvalid : c.toNat.isValidChar := c.valid
  unfold charOfCode?
  rw [if_pos hvalid, Char.ofNat_toNat]

theorem codePoint?_digits (h₃ : IsHexDigit v₃ d₃) (h₂ : IsHexDigit v₂ d₂) (h₁ : IsHexDigit v₁ d₁)
    (h₀ : IsHexDigit v₀ d₀) (hc : c.toNat = Nat.ofDigits 16 [v₀, v₁, v₂, v₃]) (rest : List Char) :
    codePoint? ('u' :: d₃ :: d₂ :: d₁ :: d₀ :: rest) = some c := by
  have hcode : ((v₃ * 16 + v₂) * 16 + v₁) * 16 + v₀ = c.toNat := by
    simp only [hc, Nat.ofDigits_cons, Nat.ofDigits_nil]
    omega
  simp only [codePoint?, hexValue?_of_isHexDigit h₃, hexValue?_of_isHexDigit h₂,
    hexValue?_of_isHexDigit h₁, hexValue?_of_isHexDigit h₀, Option.bind_eq_bind, Option.bind_some,
    hcode, charOfCode?_toNat]

/-! ## Operator codes -/

/-- **No code starts another.** -/
theorem eq_of_prefix_operatorCodes : ∀ p ∈ operatorCodes, ∀ q ∈ operatorCodes,
    p.1.toList <+: q.1.toList → p = q := by
  decide

/-- **No code goes on like a code point**: none has a digit after a `u` at its start. -/
theorem exists_of_mem_operatorCodes : ∀ p ∈ operatorCodes, ∃ a b rest,
    p.1.toList = a :: b :: rest ∧ (a = 'u' → hexValue? b = none) := by
  have hstart : ∀ p ∈ operatorCodes, 2 ≤ p.1.toList.length
      ∧ (p.1.toList[0]? = some 'u' → (p.1.toList[1]?.bind hexValue?) = none) := by
    decide
  intro p hp
  obtain ⟨hlength, hu⟩ := hstart p hp
  match hcode : p.1.toList with
  | a :: b :: rest =>
    rw [hcode] at hu
    exact ⟨a, b, rest, rfl, fun ha => hu (congrArg some ha)⟩
  | [_] | [] =>
    rw [hcode] at hlength
    contradiction

theorem codePoint?_operator {p : String × Char} (hp : p ∈ operatorCodes) (rest : List Char) :
    codePoint? (p.1.toList ++ rest) = none := by
  obtain ⟨a, b, code, hcode, hu⟩ := exists_of_mem_operatorCodes p hp
  rw [hcode, List.cons_append, List.cons_append, codePoint?.eq_def]
  split
  next heq =>
    obtain ⟨ha, heq⟩ := List.cons.inj heq
    obtain ⟨rfl, -⟩ := List.cons.inj heq
    rw [hu ha]
    rfl
  next => rfl

/-- A text starts with one code at most: of two, the shorter would start the longer. -/
theorem eq_of_isPrefixOf {p q : String × Char} (hp : p ∈ operatorCodes) (hq : q ∈ operatorCodes)
    {rest : List Char} (h : q.1.toList.isPrefixOf (p.1.toList ++ rest)) : q = p := by
  have hq' : q.1.toList <+: p.1.toList ++ rest := List.isPrefixOf_iff_prefix.1 h
  rcases List.prefix_or_prefix_of_prefix hq' (List.prefix_append p.1.toList rest) with h | h
  · exact eq_of_prefix_operatorCodes q hq p hp h
  · exact (eq_of_prefix_operatorCodes p hp q hq h).symm

theorem operator?_operator {p : String × Char} (hp : p ∈ operatorCodes) (rest : List Char) :
    operator? (p.1.toList ++ rest) = some (p.1.length, p.2) := by
  have hfind : (operatorCodes.find? fun q => q.1.toList.isPrefixOf (p.1.toList ++ rest))
      = some p := by
    cases h : operatorCodes.find? fun q => q.1.toList.isPrefixOf (p.1.toList ++ rest) with
    | none =>
      have hself : p.1.toList.isPrefixOf (p.1.toList ++ rest) :=
        List.isPrefixOf_iff_prefix.2 (List.prefix_append _ _)
      exact absurd hself (List.find?_eq_none.1 h p hp)
    | some q =>
      have hstart := List.find?_some h
      rw [eq_of_isPrefixOf hp (List.mem_of_find?_eq_some h) hstart]
  exact congrArg (Option.map _) hfind

/-! ## Decoding -/

theorem decodeChars_escape {cs : List Char} {n : Nat} (h : escape? cs = some (n, c)) :
    decodeChars ('$' :: cs) = c :: decodeChars (cs.drop n) := by
  rw [decodeChars, if_pos rfl, h]

/-- A spelling is read as the character that it stands for, whatever follows. -/
theorem decodeChars_spelling {s : String} (h : Spells c s) (rest : List Char) :
    decodeChars (s.toList ++ rest) = c :: decodeChars rest := by
  cases h with
  | plain hc => rw [String.toList_singleton, List.singleton_append, decodeChars, if_neg hc]
  | @operator code hp =>
    have hescape : escape? (code.toList ++ rest) = some (code.length, c) := by
      unfold escape?
      rw [codePoint?_operator hp]
      exact operator?_operator hp rest
    rw [String.toList_append]
    show decodeChars ('$' :: (code.toList ++ rest)) = _
    rw [decodeChars_escape hescape, ← String.length_toList, List.drop_left]
  | @codePoint d₃ d₂ d₁ d₀ _ _ _ _ h₃ h₂ h₁ h₀ hc =>
    have hescape : escape? ('u' :: d₃ :: d₂ :: d₁ :: d₀ :: rest) = some (5, c) := by
      unfold escape?
      rw [codePoint?_digits h₃ h₂ h₁ h₀ hc]
    rw [String.toList_ofList]
    exact decodeChars_escape hescape

theorem decodeChars_spellings {spelled : List (Char × String)}
    (h : ∀ p ∈ spelled, Spells p.1 p.2) (rest : List Char) :
    decodeChars ((spelled.map Prod.snd).flatMap String.toList ++ rest)
      = spelled.map Prod.fst ++ decodeChars rest := by
  induction spelled with
  | nil => rfl
  | cons p spelled ih =>
    obtain ⟨hp, hrest⟩ := List.forall_mem_cons.1 h
    rw [List.map_cons, List.flatMap_cons, List.append_assoc, decodeChars_spelling hp, ih hrest,
      List.map_cons, List.cons_append]

/-! ## Top theorem -/

/-- **Decoding undoes every encoding.**  Let each character of a text be spelled in any way.  Then
decoding the spellings gives the text, and so it does in front of anything else, which is decoded as
if it stood alone. -/
theorem decode_spellings {spelled : List (Char × String)} (h : ∀ p ∈ spelled, Spells p.1 p.2) :
    decode (String.join (spelled.map Prod.snd)) = String.ofList (spelled.map Prod.fst)
      ∧ ∀ rest, decode (String.join (spelled.map Prod.snd) ++ rest)
          = String.ofList (spelled.map Prod.fst) ++ decode rest := by
  unfold decode
  constructor
  · have hdecode := decodeChars_spellings h []
    rw [List.append_nil, decodeChars, List.append_nil] at hdecode
    rw [String.toList_join, hdecode]
  · intro rest
    rw [String.toList_append, String.toList_join, decodeChars_spellings h, String.ofList_append]

/-- A dollar in front of what would be a code, the operator whose code starts with a `u` in front of
what would be a digit, and a character of two bytes in each of its spellings. -/
def dollarEq : List (Char × String) :=
  [('$', "$u0024"), ('e', "e"), ('q', "q"), ('^', "$up"), ('0', "0"),
    ('é', "$u00E9"), ('é', "é"), ('é', "$u00e9")]

/-- The dollar is not read again, and the digit does not belong to the operator. -/
theorem decode_spellings_dollarEq : decode "$u0024eq$up0$u00E9é$u00e9" = "$eq^0ééé"
    ∧ decode ("$u0024eq$up0$u00E9é$u00e9" ++ "0") = "$eq^0ééé" ++ decode "0" := by
  have hdollar : Spells '$' "$u0024" :=
    @Spells.codePoint '$' '0' '0' '2' '4' 0 0 2 4 (by decide) (by decide) (by decide) (by decide)
      (by decide)
  have hupper : Spells 'é' "$u00E9" :=
    @Spells.codePoint 'é' '0' '0' 'E' '9' 0 0 14 9 (by decide) (by decide) (by decide) (by decide)
      (by decide)
  have hlower : Spells 'é' "$u00e9" :=
    @Spells.codePoint 'é' '0' '0' 'e' '9' 0 0 14 9 (by decide) (by decide) (by decide) (by decide)
      (by decide)
  have hspelled : ∀ p ∈ dollarEq, Spells p.1 p.2 := by
    simp only [dollarEq, List.forall_mem_cons, List.not_mem_nil, false_imp_iff, implies_true,
      and_true]
    exact ⟨hdollar, .plain (by decide), .plain (by decide), @Spells.operator '^' "up" (by decide),
      .plain (by decide), hupper, .plain (by decide), hlower⟩
  obtain ⟨halone, hrest⟩ := decode_spellings hspelled
  exact ⟨halone, hrest "0"⟩

end Interop.Name
