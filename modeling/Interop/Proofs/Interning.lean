import Mathlib.Data.Finset.Card
import Mathlib.Data.Finset.Dedup
import Interop.Interner

/-!
# Strings and their numbers

An interner holds its strings twice, in an index that gives the number of a string and in a row that
gives the string of a number.  While there are numbers left, these two stay inverse to each other
whatever is called (`Sound`), and the row only grows.  So after any calls the pairs

    a string that was interned, or ""     its number, one of  0, 1, …, size - 1

are one-to-one.  Interning goes from left to right and looking up from right to left
(`named_bijective`).
-/

namespace Interop.Interner

/-! ## Algorithm -/

/-- A call of an interner. -/
inductive Call where
  | intern (s : String)
  | lookup (n : Nat)
deriving DecidableEq

/-- What a call gives back. -/
inductive Answer where
  | number (n : Nat)
  | text (s : String)
deriving DecidableEq

/-- The answer to a call, and the interner after it. -/
def perform (t : Interner) : Call → Answer × Interner
  | .intern s => (.number (t.intern s).1, (t.intern s).2)
  | .lookup n => (.text (t.lookup n), t)

/-- A new interner after some calls. -/
def after (calls : List Call) : Interner := calls.foldl (fun t call => (t.perform call).2) new

/-- The strings that the calls intern. -/
def interned (calls : List Call) : List String :=
  calls.filterMap fun
    | .intern s => some s
    | .lookup _ => none

/-- There are numbers for the strings that the calls intern. -/
def Fits (calls : List Call) : Prop := (interned calls).toFinset.card < UInt32.size

/-- The number `n` is in use for `s`: one of the calls interned `s` and was answered `n`, or `s` is
the empty string, which has its number from the start. -/
def Named (calls : List Call) (s : String) (n : Nat) : Prop :=
  (s = "" ∧ n = 0) ∨ ∃ before later, calls = before ++ .intern s :: later
    ∧ ((after before).perform (.intern s)).1 = .number n

/-- The index and the row are inverse to each other. -/
structure Sound (t : Interner) : Prop where
  lookup_iff : ∀ s n, t.numbers.lookup s = some n ↔ t.strings[n]? = some s
  get_zero : t.strings[0]? = some ""

/-- A further string has a number. -/
def HasRoom (t : Interner) (s : String) : Prop :=
  t.numbers.lookup s = none → t.size ≤ lastNumber

variable {t : Interner} {s s' : String} {n : Nat} {calls before later : List Call}

/-! ## Interning a string -/

theorem intern_of_known (h : t.numbers.lookup s = some n) : t.intern s = (n, t) := by
  unfold intern
  rw [h]

theorem intern_of_new (h : t.numbers.lookup s = none) (hroom : t.HasRoom s) :
    t.intern s = (t.size, ⟨(s, t.size) :: t.numbers, t.strings.push s⟩) := by
  have hmin : min t.strings.size lastNumber = t.size := Nat.min_eq_left (hroom h)
  unfold intern
  rw [h]
  simp only [hmin]

theorem lookup_cons_iff {numbers : List (String × Nat)} {m : Nat} (h : numbers.lookup s' = none) :
    List.lookup s ((s', m) :: numbers) = some n
      ↔ numbers.lookup s = some n ∨ (s = s' ∧ n = m) := by
  by_cases hs : s = s'
  · subst hs
    rw [List.lookup_cons_self, h, Option.some.injEq]
    simp [eq_comm]
  · have hbeq : (s == s') = false := beq_eq_false_iff_ne.2 hs
    rw [List.lookup_cons, hbeq]
    simp [hs]

theorem get?_push_iff {strings : Array String} :
    (strings.push s')[n]? = some s ↔ strings[n]? = some s ∨ (s = s' ∧ n = strings.size) := by
  rw [Array.getElem?_push]
  by_cases hn : n = strings.size
  · subst hn
    rw [if_pos rfl, Array.getElem?_size]
    simp [eq_comm]
  · rw [if_neg hn]
    simp [hn]

/-- **What interning adds to the index**: the number of the string. -/
theorem lookup_intern_iff (hroom : t.HasRoom s') :
    (t.intern s').2.numbers.lookup s = some n
      ↔ t.numbers.lookup s = some n ∨ (s = s' ∧ n = (t.intern s').1) := by
  cases hfound : t.numbers.lookup s' with
  | some m =>
    rw [intern_of_known hfound]
    constructor
    · exact .inl
    · rintro (h | ⟨rfl, rfl⟩)
      · exact h
      · exact hfound
  | none =>
    rw [intern_of_new hfound hroom]
    exact lookup_cons_iff hfound

theorem lookup_of_get? (h : t.strings[n]? = some s) : t.lookup n = s := by
  unfold lookup
  rw [h, Option.getD_some]

theorem sound_new : new.Sound := by
  refine ⟨fun s n => ?_, rfl⟩
  show List.lookup s [("", 0)] = some n ↔ (#[].push "")[n]? = some s
  rw [lookup_cons_iff List.lookup_nil, get?_push_iff]
  simp

namespace Sound

/-- **What interning adds to the row**: the string at the place of its number. -/
theorem get?_intern_iff (ht : t.Sound) (hroom : t.HasRoom s') :
    (t.intern s').2.strings[n]? = some s
      ↔ t.strings[n]? = some s ∨ (s = s' ∧ n = (t.intern s').1) := by
  cases hfound : t.numbers.lookup s' with
  | some m =>
    rw [intern_of_known hfound]
    constructor
    · exact .inl
    · rintro (h | ⟨rfl, rfl⟩)
      · exact h
      · exact (ht.lookup_iff _ _).1 hfound
  | none =>
    rw [intern_of_new hfound hroom]
    exact get?_push_iff

/-- **Interning keeps index and row inverse.** -/
theorem intern (ht : t.Sound) (hroom : t.HasRoom s') : (t.intern s').2.Sound where
  lookup_iff s n := by
    rw [lookup_intern_iff hroom, ht.get?_intern_iff hroom, ht.lookup_iff]
  get_zero := (ht.get?_intern_iff hroom).2 (.inl ht.get_zero)

/-- A string has one number, so it stands in the row once. -/
theorem nodup (ht : t.Sound) : t.strings.toList.Nodup := by
  rw [List.nodup_iff_getElem?_ne_getElem?]
  intro i j hij hj heq
  rw [Array.getElem?_toList, Array.getElem?_toList] at heq
  obtain ⟨s, hs⟩ : ∃ s, t.strings[j]? = some s := ⟨_, Array.getElem?_eq_getElem hj⟩
  have hi := (ht.lookup_iff s i).2 (heq.trans hs)
  rw [(ht.lookup_iff s j).2 hs, Option.some.injEq] at hi
  omega

end Sound

/-! ## Calls -/

theorem after_intern (calls : List Call) (s : String) :
    after (calls ++ [.intern s]) = ((after calls).intern s).2 :=
  List.foldl_append

theorem after_lookup (calls : List Call) (n : Nat) : after (calls ++ [.lookup n]) = after calls :=
  List.foldl_append

theorem interned_append (before later : List Call) :
    interned (before ++ later) = interned before ++ interned later :=
  List.filterMap_append

theorem toFinset_interned_intern (calls : List Call) (s : String) :
    (interned (calls ++ [.intern s])).toFinset = insert s (interned calls).toFinset := by
  rw [interned_append, List.toFinset_append]
  exact Finset.union_singleton _ _

theorem interned_lookup (calls : List Call) (n : Nat) :
    interned (calls ++ [.lookup n]) = interned calls := by
  rw [interned_append]
  exact List.append_nil _

theorem Fits.of_append (h : Fits (before ++ later)) : Fits before := by
  refine Nat.lt_of_le_of_lt (Finset.card_le_card ?_) h
  rw [interned_append, List.toFinset_append]
  exact Finset.subset_union_left

/-- After the calls, index and row fit together, and hold what was interned. -/
structure Holds (calls : List Call) : Prop where
  sound : (after calls).Sound
  mem_iff : ∀ s, s ∈ (after calls).strings ↔ s ∈ insert "" (interned calls).toFinset

theorem Holds.size_eq (h : Holds calls) :
    (after calls).size = (insert "" (interned calls).toFinset).card := by
  have hrow : (after calls).strings.toList.toFinset = insert "" (interned calls).toFinset := by
    ext s
    rw [List.mem_toFinset, Array.mem_toList_iff, h.mem_iff]
  rw [← hrow, List.toFinset_card_of_nodup h.sound.nodup, Array.length_toList]
  rfl

/-- A string that is new makes one more, and that many fit. -/
theorem Holds.hasRoom (h : Holds calls) (hfits : Fits (calls ++ [.intern s])) :
    (after calls).HasRoom s := by
  intro hnew
  have hnotMem : s ∉ (interned calls).toFinset := by
    intro hs
    have hmem := (h.mem_iff s).2 (Finset.mem_insert_of_mem hs)
    obtain ⟨n, hn⟩ := Array.mem_iff_getElem?.1 hmem
    rw [← h.sound.lookup_iff, hnew] at hn
    cases hn
  have hempty := Finset.card_insert_le "" (interned calls).toFinset
  have hsize := h.size_eq
  unfold Fits at hfits
  rw [toFinset_interned_intern, Finset.card_insert_of_notMem hnotMem] at hfits
  have hlast : lastNumber + 1 = UInt32.size := rfl
  omega

/-- **One call more** keeps all that. -/
theorem Holds.concat (h : Holds calls) {call : Call} (hfits : Fits (calls ++ [call])) :
    Holds (calls ++ [call]) := by
  cases call with
  | lookup n =>
    constructor
    · rw [after_lookup]
      exact h.sound
    · intro s
      rw [after_lookup, interned_lookup]
      exact h.mem_iff s
  | intern s' =>
    have hroom := h.hasRoom hfits
    constructor
    · rw [after_intern]
      exact h.sound.intern hroom
    · intro s
      rw [after_intern, toFinset_interned_intern, Finset.insert_comm, Finset.mem_insert,
        ← h.mem_iff, Array.mem_iff_getElem?, Array.mem_iff_getElem?]
      simp only [h.sound.get?_intern_iff hroom, exists_or, exists_and_left, exists_eq, and_true]
      exact or_comm

theorem holds_of_fits (hfits : Fits calls) : Holds calls := by
  induction calls using List.reverseRecOn with
  | nil => exact ⟨sound_new, fun s => by simp [after, new, interned]⟩
  | append_singleton calls call ih => exact (ih hfits.of_append).concat hfits

/-! ## Numbers in use -/

theorem get?_after_intern_iff (hfits : Fits (calls ++ [.intern s'])) :
    (after (calls ++ [.intern s'])).strings[n]? = some s
      ↔ (after calls).strings[n]? = some s ∨ (s = s' ∧ n = ((after calls).intern s').1) := by
  have h := holds_of_fits hfits.of_append
  rw [after_intern]
  exact h.sound.get?_intern_iff (h.hasRoom hfits)

/-- A place of the row that is taken stays as it is. -/
theorem get?_after_append (hfits : Fits (before ++ later))
    (h : (after before).strings[n]? = some s) :
    (after (before ++ later)).strings[n]? = some s := by
  induction later using List.reverseRecOn with
  | nil => rwa [List.append_nil]
  | append_singleton later call ih =>
    rw [← List.append_assoc] at hfits ⊢
    have hkept := ih hfits.of_append
    cases call with
    | lookup m => rwa [after_lookup]
    | intern s' => exact (get?_after_intern_iff hfits).2 (.inl hkept)

theorem Named.append (h : Named before s n) (later : List Call) : Named (before ++ later) s n := by
  rcases h with h | ⟨first, rest, rfl, hanswer⟩
  · exact .inl h
  · exact .inr ⟨first, rest ++ later, by rw [List.append_assoc, List.cons_append], hanswer⟩

/-- **The row holds the numbers in use**: all of them, with their strings, and no others. -/
theorem named_iff (hfits : Fits calls) : Named calls s n ↔ (after calls).strings[n]? = some s := by
  constructor
  · rintro (⟨rfl, rfl⟩ | ⟨before, later, rfl, hanswer⟩)
    · exact (holds_of_fits hfits).sound.get_zero
    · obtain rfl := Answer.number.inj hanswer
      rw [List.append_cons] at hfits ⊢
      exact get?_after_append hfits ((get?_after_intern_iff hfits.of_append).2 (.inr ⟨rfl, rfl⟩))
  · intro h
    induction calls using List.reverseRecOn with
    | nil =>
      -- only the empty string is there from the start
      have h : (#[].push "")[n]? = some s := h
      rcases get?_push_iff.1 h with h | h
      · cases h
      · exact .inl h
    | append_singleton calls call ih =>
      have hbefore := ih hfits.of_append
      cases call with
      | lookup m =>
        rw [after_lookup] at h
        exact (hbefore h).append _
      | intern s' =>
        rcases (get?_after_intern_iff hfits).1 h with h | ⟨rfl, rfl⟩
        · exact (hbefore h).append _
        · exact .inr ⟨calls, [], rfl, rfl⟩

/-! ## Top theorem -/

/-- **Strings and numbers are one-to-one**, whatever was interned and looked up before, as long as
there are numbers for the strings.  The strings are those interned and the empty one, which has
number zero, and the numbers are those below the size.  At any later moment a number in use still
gives its string; any other gives the empty string, and looking up changes nothing. -/
theorem named_bijective (calls : List Call) (hfits : (interned calls).toFinset.card < UInt32.size) :
    (∀ s n s' n', Named calls s n → Named calls s' n' → (n = n' ↔ s = s'))
      ∧ (∀ s, (∃ n, Named calls s n) ↔ s = "" ∨ s ∈ interned calls)
      ∧ (∀ n, Named calls "" n ↔ n = 0)
      ∧ (∀ n, (∃ s, Named calls s n) ↔ n < (after calls).size)
      ∧ (after calls).size = (insert "" (interned calls).toFinset).card
      ∧ (∀ s n, Named calls s n → ((after calls).perform (.lookup n)).1 = .text s)
      ∧ (∀ n, (¬ ∃ s, Named calls s n) → ((after calls).perform (.lookup n)).1 = .text "")
      ∧ ∀ n, ((after calls).perform (.lookup n)).2 = after calls := by
  have h := holds_of_fits hfits
  have hinUse : ∀ n, (∃ s, Named calls s n) ↔ n < (after calls).size := by
    intro n
    simp only [named_iff hfits]
    constructor
    · rintro ⟨s, hs⟩
      exact (Array.getElem?_eq_some_iff.1 hs).1
    · intro hn
      exact ⟨_, Array.getElem?_eq_getElem hn⟩
  have hone : ∀ s n n', Named calls s n → Named calls s n' → n = n' := by
    intro s n n' hs hs'
    rw [named_iff hfits, ← h.sound.lookup_iff] at hs hs'
    exact Option.some.inj (hs.symm.trans hs')
  refine ⟨?_, ?_, ?_, hinUse, h.size_eq, ?_, ?_, fun _ => rfl⟩
  · intro s n s' n' hs hs'
    constructor
    · rintro rfl
      rw [named_iff hfits] at hs hs'
      exact Option.some.inj (hs.symm.trans hs')
    · rintro rfl
      exact hone s n n' hs hs'
  · intro s
    simp only [named_iff hfits]
    rw [← Array.mem_iff_getElem?, h.mem_iff, Finset.mem_insert, List.mem_toFinset]
  · intro n
    constructor
    · intro hn
      exact hone "" n 0 hn (.inl ⟨rfl, rfl⟩)
    · rintro rfl
      exact .inl ⟨rfl, rfl⟩
  · intro s n hs
    rw [named_iff hfits] at hs
    exact congrArg Answer.text (lookup_of_get? hs)
  · intro n hn
    rw [hinUse, Nat.not_lt] at hn
    have hnone : (after calls).strings[n]? = none := Array.getElem?_eq_none hn
    show Answer.text ((after calls).strings[n]?.getD "") = .text ""
    rw [hnone, Option.getD_none]

/-- Two strings, one of them twice, with questions in between, and the empty string at last. -/
def colours : List Call :=
  [.intern "red", .lookup 7, .intern "blue", .lookup 1, .intern "red", .intern ""]

/-- Red has number one and blue has number two. -/
theorem named_bijective_colours :
    (interned colours).toFinset.card < UInt32.size ∧ (after colours).size = 3
      ∧ ((after colours).perform (.lookup 2)).1 = .text "blue"
      ∧ ((after colours).perform (.lookup 7)).1 = .text "" := by
  have hfits : (interned colours).toFinset.card < UInt32.size := by decide
  obtain ⟨-, -, -, hinUse, hsize, hlookup, hunused, -⟩ := named_bijective colours hfits
  have hblue : Named colours "blue" 2 :=
    .inr ⟨[.intern "red", .lookup 7], [.lookup 1, .intern "red", .intern ""], rfl, by decide⟩
  refine ⟨hfits, hsize.trans (by decide), hlookup _ _ hblue, hunused 7 ?_⟩
  rw [hinUse]
  decide

end Interop.Interner
