import Mathlib.Data.Fintype.Pigeonhole
import Interop.Proofs.Members

/-!
# Chains of aliases

An alias stands for the type of its symbol, which may be an alias again.  Such a chain ends in a
type that is none (`StandsFor`), or it leads out of the table (`Strays`), or it goes on for ever
(`Endless`), which it does exactly if it comes back to an alias (`endless_iff`).  Aliases are looked
through as long as there are less than `aliasLimit` of them:

    ty stands for r by n aliases,  n < aliasLimit   →   dealias ty = r
    ty stands for nothing by less than aliasLimit   →   dealias ty = error

So a chain that is as long as the limit is given up like a cycle, whatever it ends in
(`dealias_settles`).
-/

namespace Interop

/-- Another name for a type. -/
def Ty.isAlias : Ty → Bool
  | .aliased _ => true
  | _ => false

theorem Ty.isAlias_iff {ty : Ty} : ty.isAlias ↔ ∃ a, ty = .aliased a := by
  cases ty <;> simp [isAlias]

namespace SymbolTable

/-! ## Algorithm -/

/-- Looking through `n` aliases, all of them in the table, leads from one type to another. -/
inductive Unfolds (t : SymbolTable) : Nat → Ty → Ty → Prop
  | refl (ty : Ty) : Unfolds t 0 ty ty
  | step {n : Nat} {a : SymbolRef} {s : Symbol} {ty : Ty} :
      t.get? a = some s → Unfolds t n s.info ty → Unfolds t (n + 1) (.aliased a) ty

/-- Looking through `n` aliases leads to a type that is no alias. -/
def StandsFor (t : SymbolTable) (n : Nat) (ty r : Ty) : Prop := t.Unfolds n ty r ∧ ¬ r.isAlias

/-- The chain of aliases leads out of the table. -/
def Strays (t : SymbolTable) (ty : Ty) : Prop :=
  ∃ n a, t.Unfolds n ty (.aliased a) ∧ t.get? a = none

/-- However many aliases are looked through, there is a further one. -/
def Endless (t : SymbolTable) (ty : Ty) : Prop := ∀ n, ∃ a, t.Unfolds n ty (.aliased a)

variable {t : SymbolTable} {m n : Nat} {a : SymbolRef} {ty ty' r r' : Ty}

/-! ## Chains -/

namespace Unfolds

theorem trans (h : t.Unfolds m ty ty') (h' : t.Unfolds n ty' r) : t.Unfolds (n + m) ty r := by
  induction h with
  | refl => exact h'
  | step hs _ ih => exact .step hs (ih h')

/-- Of two points of a chain, the later one is reached from the earlier one. -/
theorem of_add (h : t.Unfolds m ty ty') (h' : t.Unfolds (n + m) ty r) : t.Unfolds n ty' r := by
  induction h with
  | refl => exact h'
  | step hs _ ih =>
    cases h' with
    | step hs' hrest =>
      obtain rfl := Option.some.inj (hs.symm.trans hs')
      exact ih hrest

theorem eq_of_not_isAlias (h : t.Unfolds n ty ty') (hty : ¬ ty.isAlias) : n = 0 ∧ ty = ty' := by
  cases h with
  | refl => exact ⟨rfl, rfl⟩
  | step => exact absurd rfl hty

/-- Before an alias of a chain there are only aliases. -/
theorem exists_aliased (h : t.Unfolds n ty (.aliased a)) (hm : m ≤ n) :
    ∃ b, t.Unfolds m ty (.aliased b) := by
  generalize hend : Ty.aliased a = r at h
  induction h generalizing m with
  | refl ty =>
    obtain rfl := Nat.le_zero.1 hm
    subst hend
    exact ⟨a, .refl _⟩
  | @step n b s ty hs _ ih =>
    cases m with
    | zero => exact ⟨b, .refl _⟩
    | succ m =>
      obtain ⟨c, hc⟩ := ih (Nat.le_of_succ_le_succ hm) hend
      exact ⟨c, .step hs hc⟩

theorem exists_lt_size (h : t.Unfolds (n + 1) (.aliased a) ty) : ∃ id < t.size, a = some id := by
  cases h with
  | step hs _ =>
    cases a with
    | none => cases hs
    | some id => exact ⟨id, lt_size_of_get?_eq_some hs, rfl⟩

end Unfolds

/-- What a type stands for is one type, by one number of aliases. -/
theorem StandsFor.unique (h : t.StandsFor m ty r) (h' : t.StandsFor n ty r') : m = n ∧ r = r' := by
  rcases Nat.le_total m n with hle | hle
  · obtain ⟨k, rfl⟩ := Nat.exists_eq_add_of_le' hle
    obtain ⟨rfl, rfl⟩ := (h.1.of_add h'.1).eq_of_not_isAlias h.2
    exact ⟨(Nat.zero_add m).symm, rfl⟩
  · obtain ⟨k, rfl⟩ := Nat.exists_eq_add_of_le' hle
    obtain ⟨rfl, rfl⟩ := (h'.1.of_add h.1).eq_of_not_isAlias h'.2
    exact ⟨Nat.zero_add n, rfl⟩

/-- A chain that does not end leads out of the table or goes on for ever. -/
theorem strays_or_endless (h : ∀ n r, ¬ t.StandsFor n ty r) : t.Strays ty ∨ t.Endless ty := by
  by_cases hstrays : t.Strays ty
  · exact .inl hstrays
  · refine .inr fun n => ?_
    induction n with
    | zero =>
      by_cases hty : ty.isAlias
      · obtain ⟨a, rfl⟩ := Ty.isAlias_iff.1 hty
        exact ⟨a, .refl _⟩
      · exact absurd ⟨.refl ty, hty⟩ (h 0 ty)
    | succ n ih =>
      obtain ⟨a, ha⟩ := ih
      cases hs : t.get? a with
      | none => exact absurd ⟨n, a, ha, hs⟩ hstrays
      | some s =>
        have hnext : t.Unfolds (n + 1) ty s.info := by
          rw [Nat.add_comm]
          exact ha.trans (.step hs (.refl _))
        by_cases hinfo : s.info.isAlias
        · obtain ⟨b, hb⟩ := Ty.isAlias_iff.1 hinfo
          exact ⟨b, hb ▸ hnext⟩
        · exact absurd ⟨hnext, hinfo⟩ (h (n + 1) s.info)

/-- **A chain goes on for ever** exactly if it comes back to an alias: there are only so many in the
table. -/
theorem endless_iff : t.Endless ty
    ↔ ∃ a m k, t.Unfolds m ty (.aliased a) ∧ t.Unfolds (k + 1) (.aliased a) (.aliased a) := by
  constructor
  · intro h
    choose f hf using h
    have hbetween : ∀ m k, t.Unfolds k (.aliased (f m)) (.aliased (f (k + m))) := fun m k =>
      (hf m).of_add (hf (k + m))
    have hbound : ∀ n, ∃ id : Fin t.size, f n = some id.1 := fun n => by
      obtain ⟨id, hlt, hid⟩ := (hbetween n 1).exists_lt_size
      exact ⟨⟨id, hlt⟩, hid⟩
    choose g hg using hbound
    obtain ⟨m, n, hlt, heq⟩ : ∃ m n, m < n ∧ g m = g n := by
      obtain ⟨m, n, hne, heq⟩ := Finite.exists_ne_map_eq_of_infinite g
      rcases Nat.lt_or_gt_of_ne hne with hlt | hgt
      · exact ⟨m, n, hlt, heq⟩
      · exact ⟨n, m, hgt, heq.symm⟩
    obtain ⟨k, rfl⟩ := Nat.exists_eq_add_of_le' hlt
    have hback := hbetween m (k + 1)
    rw [show f (k + 1 + m) = f m by rw [hg, hg, heq, Nat.add_right_comm, Nat.add_assoc]] at hback
    exact ⟨f m, m, k, hf m, hback⟩
  · rintro ⟨a, m, k, hm, hk⟩ n
    have hround : ∀ j, t.Unfolds (j * (k + 1)) (.aliased a) (.aliased a) := by
      intro j
      induction j with
      | zero =>
        rw [Nat.zero_mul]
        exact .refl _
      | succ j ih =>
        rw [Nat.succ_mul]
        exact hk.trans ih
    have hfar : n ≤ n * (k + 1) := Nat.le_mul_of_pos_right n (Nat.succ_pos k)
    exact (hm.trans (hround n)).exists_aliased (Nat.le_add_right_of_le hfar)

/-! ## Looking through them -/

theorem dealiasWithin_of_not_isAlias (hty : ¬ ty.isAlias) : t.dealiasWithin (n + 1) ty = ty := by
  cases ty with
  | aliased a => exact absurd rfl hty
  | _ => rfl

theorem dealiasWithin_of_unfolds (h : t.Unfolds m ty ty') :
    t.dealiasWithin (n + m) ty = t.dealiasWithin n ty' := by
  induction h with
  | refl => rfl
  | step hs _ ih =>
    rw [← ih, ← Nat.add_assoc, dealiasWithin, hs]
    rfl

/-- A chain that ends within the bound is looked through. -/
theorem dealiasWithin_of_standsFor (h : t.StandsFor m ty r) (hlt : m < n) :
    t.dealiasWithin n ty = r := by
  obtain ⟨k, rfl⟩ := Nat.exists_eq_add_of_le' hlt
  rw [Nat.add_succ, ← Nat.succ_add, dealiasWithin_of_unfolds h.1, dealiasWithin_of_not_isAlias h.2]

/-- A chain that does not end within the bound is an error. -/
theorem dealiasWithin_eq_error (h : ∀ m < n, ∀ r, ¬ t.StandsFor m ty r) :
    t.dealiasWithin n ty = .error := by
  induction n generalizing ty with
  | zero => rfl
  | succ n ih =>
    by_cases hty : ty.isAlias
    · obtain ⟨a, rfl⟩ := Ty.isAlias_iff.1 hty
      cases hs : t.get? a with
      | none =>
        rw [dealiasWithin, hs]
        cases n with
        | zero => rfl
        | succ n => rfl
      | some s =>
        rw [dealiasWithin, hs]
        refine ih fun m hlt r hr => h (m + 1) (Nat.succ_lt_succ hlt) r ⟨.step hs hr.1, hr.2⟩
    · exact absurd ⟨.refl ty, hty⟩ (h 0 (Nat.succ_pos n) ty)

/-- **What aliases are looked through to.** -/
theorem dealias_eq_iff : t.dealias ty = r ↔ (∃ n < aliasLimit, t.StandsFor n ty r)
    ∨ (r = .error ∧ ∀ n < aliasLimit, ∀ r', ¬ t.StandsFor n ty r') := by
  constructor
  · rintro rfl
    by_cases h : ∃ n < aliasLimit, ∃ r, t.StandsFor n ty r
    · obtain ⟨n, hlt, r, hr⟩ := h
      refine .inl ⟨n, hlt, ?_⟩
      rwa [dealias, dealiasWithin_of_standsFor hr hlt]
    · simp only [not_exists, not_and] at h
      exact .inr ⟨dealiasWithin_eq_error h, h⟩
  · rintro (⟨n, hlt, hr⟩ | ⟨rfl, h⟩)
    · exact dealiasWithin_of_standsFor hr hlt
    · exact dealiasWithin_eq_error h

/-- What a type stands for is found by less than `aliasLimit` aliases only. -/
theorem StandsFor.dealias_eq (h : t.StandsFor n ty r) :
    t.dealias ty = if n < aliasLimit then r else .error := by
  split
  next hlt => exact dealiasWithin_of_standsFor h hlt
  next hge =>
    refine dealiasWithin_eq_error fun m hm r' hr' => ?_
    obtain ⟨rfl, -⟩ := hr'.unique h
    exact hge hm

/-- No alias is left. -/
theorem not_isAlias_dealias (t : SymbolTable) (ty : Ty) : ¬ (t.dealias ty).isAlias := by
  rcases dealias_eq_iff.1 (rfl : t.dealias ty = _) with ⟨_, -, h⟩ | ⟨h, -⟩
  · exact h.2
  · rw [h]
    simp [Ty.isAlias]

theorem dealias_of_not_isAlias (hty : ¬ ty.isAlias) : t.dealias ty = ty :=
  dealiasWithin_of_not_isAlias hty

/-! ## Chains of every length -/

/-- The last of `n` aliases that are declared after what is in the table, each for the one before it
and the first for a number. -/
def link (t : SymbolTable) : Nat → Ty
  | 0 => .int
  | n + 1 => .aliased (some (t.size + n))

/-- The table with `n` aliases in a chain. -/
def chained (t : SymbolTable) : Nat → SymbolTable
  | 0 => t
  | n + 1 => (t.chained n).enter ⟨some root, "T", .typeAlias (t.link n)⟩

/-- What is declared on top of `n` aliases. -/
def linkSymbol (t : SymbolTable) (n : Nat) : Symbol :=
  { name := "T", kind := .typeAlias, owner := some root, info := t.link n }

theorem chained_succ (t : SymbolTable) (n : Nat) :
    t.chained (n + 1) = (t.chained n).push (t.linkSymbol n) := rfl

theorem Unfolds.push (h : t.Unfolds n ty r) (s : Symbol) : (t.push s).Unfolds n ty r := by
  induction h with
  | refl => exact .refl _
  | @step n a s' ty hs' _ ih =>
    cases a with
    | none => cases hs'
    | some id => exact .step ((get?_push_of_lt t s (lt_size_of_get?_eq_some hs')).trans hs') ih

theorem size_chained (t : SymbolTable) (n : Nat) : (t.chained n).size = t.size + n := by
  induction n with
  | zero => rfl
  | succ n ih => rw [chained_succ, size_push, ih, Nat.add_assoc]

theorem standsFor_link (t : SymbolTable) (n : Nat) : (t.chained n).StandsFor n (t.link n) .int := by
  refine ⟨?_, by simp [Ty.isAlias]⟩
  induction n with
  | zero => exact .refl _
  | succ n ih =>
    have hget := get?_push_size (t.chained n) (t.linkSymbol n)
    rw [size_chained] at hget
    exact .step hget (ih.push (t.linkSymbol n))

/-- However long a chain is, it can be declared, and from `aliasLimit` aliases on it is given up. -/
theorem dealias_link (t : SymbolTable) (n : Nat) :
    (t.chained n).dealias (t.link n) = if n < aliasLimit then .int else .error :=
  (standsFor_link t n).dealias_eq

/-! ## Top theorem -/

/-- **Only what is short is looked through.**  A type is looked through to what it stands for by less
than `aliasLimit` aliases, and to an error if there is no such type.  So the type that it stands for
is found, and an error means that it stands for none or for an error, exactly if no chain of
`aliasLimit` aliases or more ends in anything else. -/
theorem dealias_settles (t : SymbolTable) (ty : Ty) :
    (∀ r, t.dealias ty = r ↔ (∃ n < aliasLimit, t.StandsFor n ty r)
      ∨ (r = .error ∧ ∀ n < aliasLimit, ∀ r', ¬ t.StandsFor n ty r'))
    ∧ (((∀ n r, t.StandsFor n ty r → t.dealias ty = r)
        ∧ (t.dealias ty = .error →
            t.Endless ty ∨ t.Strays ty ∨ ∃ n, t.StandsFor n ty .error))
      ↔ ∀ n r, t.StandsFor n ty r → n < aliasLimit ∨ r = .error) := by
  refine ⟨fun r => dealias_eq_iff, fun ⟨hfound, _⟩ n r hr => ?_, fun hshort => ?_⟩
  · have heq := hr.dealias_eq
    rw [hfound n r hr] at heq
    split at heq
    next hlt => exact .inl hlt
    next => exact .inr heq
  · have hfound : ∀ n r, t.StandsFor n ty r → t.dealias ty = r := by
      intro n r hr
      rw [hr.dealias_eq]
      split
      next => rfl
      next hge => exact ((hshort n r hr).resolve_left hge).symm
    refine ⟨hfound, fun herror => ?_⟩
    by_cases hends : ∃ n r, t.StandsFor n ty r
    · obtain ⟨n, r, hr⟩ := hends
      obtain rfl : .error = r := herror.symm.trans (hfound n r hr)
      exact .inr (.inr ⟨n, hr⟩)
    · simp only [not_exists] at hends
      rcases strays_or_endless hends with hstrays | hendless
      · exact .inr (.inl hstrays)
      · exact .inl hendless

/-- The shortest chain that is given up ends in a number, and is taken for a cycle. -/
theorem dealias_settles_link :
    (Library.fresh.2.chained 64).StandsFor 64 (Library.fresh.2.link 64) .int
      ∧ (Library.fresh.2.chained 64).dealias (Library.fresh.2.link 64) = .error
      ∧ ∀ n < 64, (Library.fresh.2.chained n).dealias (Library.fresh.2.link n) = .int := by
  have hends := standsFor_link Library.fresh.2 64
  refine ⟨hends, ?_, fun n hn => ?_⟩
  · refine ((dealias_settles _ _).1 .error).2 (.inr ⟨rfl, fun m hm r hr => ?_⟩)
    obtain ⟨rfl, -⟩ := hr.unique hends
    exact absurd hm (by decide)
  · exact ((dealias_settles _ _).1 .int).2 (.inl ⟨n, hn, standsFor_link _ n⟩)

end SymbolTable

end Interop
