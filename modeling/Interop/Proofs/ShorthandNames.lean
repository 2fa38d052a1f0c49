import Interop.Proofs.Spellings

/-!
# What decodes to a name

Decoding makes nothing up.  A character other than the dollar was written in one of the ways that
there are to spell it, so for a text without dollars

    decode name = text   ↔   name is a row of spellings of the characters of text

(`decodeChars_eq_iff`).  A dollar may also be there because it starts no escape.  The member `x` of
the dynamic shorthand has no operator code, and no letter among the digits of its code point, so it
is written `x` or `$u0078` and in no other way (`decode_eq_x_iff`).
-/

namespace Interop.Name

variable {c : Char} {cs : List Char} {n v : Nat}

/-! ## Escapes are spellings -/

/-- It is enough that the characters of a range are digits in order. -/
theorem isHexDigit_of_between {a b : Char} {k : Nat}
    (hall : ∀ v ≤ b.toNat - a.toNat, IsHexDigit (v + k) (Char.ofNat (a.toNat + v)))
    (h : a ≤ c ∧ c ≤ b) : IsHexDigit (c.toNat - a.toNat + k) c := by
  have hle : a.toNat ≤ c.toNat := h.1
  have hge : c.toNat ≤ b.toNat := h.2
  have hdigit := hall (c.toNat - a.toNat) (by omega)
  rwa [Nat.add_sub_cancel' hle, Char.ofNat_toNat] at hdigit

theorem isHexDigit_of_hexValue? (h : hexValue? c = some v) : IsHexDigit v c := by
  unfold hexValue? at h
  split at h
  next hdecimal =>
    obtain rfl := Option.some.inj h
    exact @isHexDigit_of_between c '0' '9' 0 (by decide) hdecimal
  next =>
    split at h
    next hlower =>
      obtain rfl := Option.some.inj h
      exact @isHexDigit_of_between c 'a' 'f' 10 (by decide) hlower
    next =>
      split at h
      next hupper =>
        obtain rfl := Option.some.inj h
        exact @isHexDigit_of_between c 'A' 'F' 10 (by decide) hupper
      next => cases h

/-- Decimal digits have no cases. -/
theorem eq_digitChar_of_isHexDigit (h : IsHexDigit v c) (hv : v < 10) : c = v.digitChar := by
  have hupper : ∀ v < 10, v.digitChar.toUpper = v.digitChar := by decide
  rcases h.2 with hc | hc
  · exact hc
  · rw [hc, hupper v hv]

theorem toNat_of_charOfCode? (h : charOfCode? n = some c) : c.toNat = n := by
  unfold charOfCode? at h
  split at h
  next hvalid =>
    obtain rfl := Option.some.inj h
    rw [Char.ofNat, dif_pos hvalid]
    rfl
  next => cases h

/-- A code point is read off four digits that spell it. -/
theorem exists_spells_of_codePoint? (h : codePoint? cs = some c) :
    ∃ s, Spells c s ∧ '$' :: cs = s.toList ++ cs.drop 5 := by
  unfold codePoint? at h
  split at h
  next d₃ d₂ d₁ d₀ rest =>
    obtain ⟨v₃, h₃, h⟩ := Option.bind_eq_some_iff.1 h
    obtain ⟨v₂, h₂, h⟩ := Option.bind_eq_some_iff.1 h
    obtain ⟨v₁, h₁, h⟩ := Option.bind_eq_some_iff.1 h
    obtain ⟨v₀, h₀, h⟩ := Option.bind_eq_some_iff.1 h
    have hcode : c.toNat = Nat.ofDigits 16 [v₀, v₁, v₂, v₃] := by
      rw [toNat_of_charOfCode? h]
      simp only [Nat.ofDigits_cons, Nat.ofDigits_nil]
      omega
    refine ⟨_, .codePoint (isHexDigit_of_hexValue? h₃) (isHexDigit_of_hexValue? h₂)
      (isHexDigit_of_hexValue? h₁) (isHexDigit_of_hexValue? h₀) hcode, ?_⟩
    rw [String.toList_ofList]
    rfl
  next => cases h

/-- An operator is read off its code. -/
theorem exists_spells_of_operator? (h : operator? cs = some (n, c)) :
    ∃ s, Spells c s ∧ '$' :: cs = s.toList ++ cs.drop n := by
  obtain ⟨⟨code, c'⟩, hfind, heq⟩ := Option.map_eq_some_iff.1 h
  obtain ⟨rfl, rfl⟩ := Prod.mk.inj heq
  have hstart := List.find?_some hfind
  obtain ⟨rest, rfl⟩ := List.isPrefixOf_iff_prefix.1 hstart
  refine ⟨_, .operator (List.mem_of_find?_eq_some hfind), ?_⟩
  rw [← String.length_toList, List.drop_left, String.toList_append]
  rfl

theorem exists_spells_of_escape? (h : escape? cs = some (n, c)) :
    ∃ s, Spells c s ∧ '$' :: cs = s.toList ++ cs.drop n := by
  unfold escape? at h
  split at h
  next c' hcode =>
    obtain ⟨rfl, rfl⟩ := Prod.mk.inj (Option.some.inj h)
    exact exists_spells_of_codePoint? hcode
  next => exact exists_spells_of_operator? h

/-! ## Decoding -/

theorem decodeChars_eq_nil_iff : decodeChars cs = [] ↔ cs = [] := by
  constructor
  · intro h
    cases cs with
    | nil => rfl
    | cons c cs =>
      rw [decodeChars] at h
      split at h
      · split at h <;> cases h
      · cases h
  · rintro rfl
    rw [decodeChars]

/-- **Where a character comes from**, other than a dollar: it was spelled in front of the rest. -/
theorem decodeChars_eq_cons_iff (hc : c ≠ '$') {ds : List Char} :
    decodeChars cs = c :: ds
      ↔ ∃ s rest, Spells c s ∧ cs = s.toList ++ rest ∧ decodeChars rest = ds := by
  constructor
  · intro h
    cases cs with
    | nil =>
      rw [decodeChars] at h
      cases h
    | cons c' cs =>
      rw [decodeChars] at h
      by_cases hdollar : c' = '$'
      · subst hdollar
        rw [if_pos rfl] at h
        split at h
        next n d hescape =>
          obtain ⟨rfl, hrest⟩ := List.cons.inj h
          obtain ⟨s, hs, heq⟩ := exists_spells_of_escape? hescape
          exact ⟨s, cs.drop n, hs, heq, hrest⟩
        next => exact absurd (List.cons.inj h).1.symm hc
      · rw [if_neg hdollar] at h
        obtain ⟨rfl, hrest⟩ := List.cons.inj h
        exact ⟨_, cs, .plain hdollar, by rw [String.toList_singleton]; rfl, hrest⟩
  · rintro ⟨s, rest, hs, rfl, rfl⟩
    exact decodeChars_spelling hs rest

/-- **What decodes to a text** without dollars is a row of spellings of its characters. -/
theorem decodeChars_eq_iff {ds : List Char} (hds : '$' ∉ ds) :
    decodeChars cs = ds ↔ ∃ spelled : List (Char × String), (∀ p ∈ spelled, Spells p.1 p.2)
      ∧ spelled.map Prod.fst = ds ∧ cs = (spelled.map Prod.snd).flatMap String.toList := by
  constructor
  · intro h
    induction ds generalizing cs with
    | nil =>
      rw [decodeChars_eq_nil_iff] at h
      subst h
      exact ⟨[], by simp, rfl, rfl⟩
    | cons d ds ih =>
      rw [List.mem_cons, not_or] at hds
      obtain ⟨s, rest, hs, rfl, hrest⟩ := (decodeChars_eq_cons_iff (Ne.symm hds.1)).1 h
      obtain ⟨spelled, hspelled, rfl, rfl⟩ := ih hds.2 hrest
      exact ⟨(d, s) :: spelled, List.forall_mem_cons.2 ⟨hs, hspelled⟩, rfl, rfl⟩
  · rintro ⟨spelled, hspelled, rfl, rfl⟩
    have hdecode := decodeChars_spellings hspelled []
    rwa [List.append_nil, decodeChars, List.append_nil] at hdecode

/-- The spellings of the member name of the shorthand. -/
theorem spells_x_iff {s : String} : Spells 'x' s ↔ s = "x" ∨ s = "$u0078" := by
  constructor
  · intro h
    cases h with
    | plain => exact .inl rfl
    | operator hcode =>
      have hno : ∀ p ∈ operatorCodes, p.2 ≠ 'x' := by decide
      exact absurd rfl (hno _ hcode)
    | @codePoint d₃ d₂ d₁ d₀ v₃ v₂ v₁ v₀ h₃ h₂ h₁ h₀ hcode =>
      -- the code point of `x` is 120, and its hexadecimal digits are 0078
      have hvalue : 120 = Nat.ofDigits 16 [v₀, v₁, v₂, v₃] := hcode
      simp only [Nat.ofDigits_cons, Nat.ofDigits_nil] at hvalue
      have hdigits : v₃ < 16 ∧ v₂ < 16 ∧ v₁ < 16 ∧ v₀ < 16 := ⟨h₃.1, h₂.1, h₁.1, h₀.1⟩
      obtain ⟨rfl, rfl, rfl, rfl⟩ : v₃ = 0 ∧ v₂ = 0 ∧ v₁ = 7 ∧ v₀ = 8 := by omega
      rw [eq_digitChar_of_isHexDigit h₃ (by decide), eq_digitChar_of_isHexDigit h₂ (by decide),
        eq_digitChar_of_isHexDigit h₁ (by decide), eq_digitChar_of_isHexDigit h₀ (by decide)]
      exact .inr rfl
  · rintro (rfl | rfl)
    · exact .plain (by decide)
    · exact @Spells.codePoint 'x' '0' '0' '7' '8' 0 0 7 8 (by decide) (by decide) (by decide)
        (by decide) (by decide)

/-! ## Top theorem -/

/-- **Two names decode to `x`**, the plain one and the one that spells the code point. -/
theorem decode_eq_x_iff (name : String) : decode name = "x" ↔ name = "x" ∨ name = "$u0078" := by
  have hchars : decode name = "x" ↔ decodeChars name.toList = ['x'] := by
    unfold decode
    rw [← String.toList_inj, String.toList_ofList]
    rfl
  rw [hchars, decodeChars_eq_iff (by decide), ← spells_x_iff]
  constructor
  · rintro ⟨spelled, hspelled, hx, hname⟩
    -- one character is spelled, so one spelling is all of the name
    obtain ⟨⟨c, s⟩, rfl, rfl⟩ := List.map_eq_singleton_iff.1 hx
    rw [List.map_singleton, List.flatMap_singleton, String.toList_inj] at hname
    rw [hname]
    exact hspelled _ (.head _)
  · intro h
    refine ⟨[('x', name)], ?_, rfl, ?_⟩
    · rw [List.forall_mem_singleton]
      exact h
    · rw [List.map_singleton, List.flatMap_singleton]

end Interop.Name
