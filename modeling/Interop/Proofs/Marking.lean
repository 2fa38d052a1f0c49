import Interop.Export
import Interop.Proofs.Installed

/-!
# Marking

Declarations are marked by putting the marker before the other annotations of a class, once.  What
any sequence of marks leaves is

    (markAll ms a).of r  =  the first mark for r in ms, if r lacks one  ++  a.of r

so later marks for the same class are lost, no mark is ever doubled, and marks for other classes
do not matter.
-/

namespace Interop

namespace Annotations

variable {a : Annotations} {r q c : SymbolRef}

theorem size_update (a : Annotations) (r : SymbolRef) (f : List Annotation → List Annotation) :
    (a.update r f).lists.size = a.lists.size := by
  cases r with
  | none => rfl
  | some id => simp [update]

theorem of_update (a : Annotations) (r q : SymbolRef) (f : List Annotation → List Annotation) :
    (a.update r f).of q
      = if q = r ∧ r.any (· < a.lists.size) then f (a.of q) else a.of q := by
  cases r with
  | none => simp [update]
  | some id =>
    cases q with
    | none => simp [of]
    | some id' =>
      unfold update of
      by_cases hid : id' = id
      · subst hid
        by_cases hlt : id' < a.lists.size
        · simp [Array.getElem?_modify, hlt]
        · simp [Array.getElem?_modify, hlt]
      · simp [Array.getElem?_modify, hid, Ne.symm hid]

/-- An annotation is put before those of one symbol, if that lacks one of its class. -/
theorem of_prependOnce (a : Annotations) (r q : SymbolRef) (x : Annotation) :
    (a.prependOnce r x).of q
      = (if q = r ∧ a.lacks r x.symbol then [x] else []) ++ a.of q := by
  unfold prependOnce lacks
  by_cases hhas : a.has r x.symbol
  · simp [hhas]
  · rw [if_neg hhas, of_update]
    by_cases hq : q = r ∧ r.any (· < a.lists.size)
    · rw [if_pos hq, if_pos (by simpa [hhas] using hq)]
      rfl
    · rw [if_neg hq, if_neg (by simpa [hhas] using hq)]
      rfl

theorem has_prependOnce (a : Annotations) (r q : SymbolRef) (x : Annotation) :
    (a.prependOnce r x).has q x.symbol
      = (a.has q x.symbol || decide (q = r ∧ a.lacks r x.symbol)) := by
  unfold has
  rw [of_prependOnce]
  split
  next h => simp [h]
  next h => simp [h]

theorem size_prependOnce (a : Annotations) (r : SymbolRef) (x : Annotation) :
    (a.prependOnce r x).lists.size = a.lists.size := by
  unfold prependOnce
  split
  next => rfl
  next => exact size_update _ _ _

theorem lacks_prependOnce (a : Annotations) (r q : SymbolRef) (x : Annotation) :
    (a.prependOnce r x).lacks q x.symbol = (a.lacks q x.symbol && decide (q ≠ r)) := by
  unfold lacks
  rw [has_prependOnce, size_prependOnce]
  by_cases hq : q = r
  · subst hq
    unfold lacks
    by_cases hsize : q.any (· < a.lists.size)
    · simp [hsize]
    · simp [hsize]
  · simp [hq]

/-- A symbol that has an annotation of the class, or is not in the table, gets none. -/
theorem prependOnce_of_lacks_eq_false {x : Annotation} (h : a.lacks r x.symbol = false) :
    a.prependOnce r x = a := by
  unfold prependOnce
  split
  next => rfl
  next hhas =>
    cases r with
    | none => rfl
    | some id =>
      have hsize : a.lists.size ≤ id := by simpa [lacks, hhas] using h
      show (⟨a.lists.modify id (x :: ·)⟩ : Annotations) = a
      congr 1
      refine Array.ext_getElem? fun i => ?_
      rw [Array.getElem?_modify]
      split
      next hid => rw [← hid, Array.getElem?_eq_none hsize, Option.map_none]
      next => rfl

end Annotations

/-! ## Sequences of marks -/

/-- The mark of a declaration at `span`. -/
def Env.marker (env : Env) (span : Span) : Annotation := { symbol := some env.lib.rawJSType, span }

namespace Env

variable {env : Env} {a : Annotations}

/-- Put marks on classes, one after the other. -/
def markAll (env : Env) (ms : List (SymbolRef × Span)) (a : Annotations) : Annotations :=
  ms.foldl (fun a m => a.prependOnce m.1 (env.marker m.2)) a

/-- The first mark for a class. -/
def firstMark (env : Env) (ms : List (SymbolRef × Span)) (r : SymbolRef) : Option Annotation :=
  (ms.find? fun m => m.1 = r).map fun m => env.marker m.2

theorem markAll_append (ms ns : List (SymbolRef × Span)) (a : Annotations) :
    env.markAll (ms ++ ns) a = env.markAll ns (env.markAll ms a) :=
  List.foldl_append

/-- **What marks leave.** -/
theorem of_markAll (ms : List (SymbolRef × Span)) (a : Annotations) (r : SymbolRef) :
    (env.markAll ms a).of r
      = (if a.lacks r (some env.lib.rawJSType) then (env.firstMark ms r).toList else [])
        ++ a.of r := by
  induction ms generalizing a with
  | nil => simp [markAll, firstMark]
  | cons m ms ih =>
    show (env.markAll ms (a.prependOnce m.1 (env.marker m.2))).of r = _
    rw [ih, a.of_prependOnce m.1 r (env.marker m.2),
      show (a.prependOnce m.1 (env.marker m.2)).lacks r (some env.lib.rawJSType)
        = (a.lacks r (some env.lib.rawJSType) && decide (r ≠ m.1)) from
          a.lacks_prependOnce m.1 r (env.marker m.2)]
    unfold firstMark
    by_cases hr : r = m.1
    · subst hr
      rw [List.find?_cons_of_pos (by simp)]
      simp [marker]
    · rw [List.find?_cons_of_neg (by simpa using Ne.symm hr)]
      simp [hr]

/-- A class keeps its annotations, or gets the first mark for it in front if it lacked the
marker. -/
theorem of_markAll_cases (ms : List (SymbolRef × Span)) (a : Annotations) (r : SymbolRef) :
    (env.markAll ms a).of r = a.of r
      ∨ (a.has r (some env.lib.rawJSType) = false
        ∧ ∃ x, env.firstMark ms r = some x ∧ (env.markAll ms a).of r = x :: a.of r) := by
  rw [of_markAll]
  by_cases hlacks : a.lacks r (some env.lib.rawJSType)
  · rw [if_pos hlacks]
    unfold Annotations.lacks at hlacks
    rw [Bool.and_eq_true, Bool.not_eq_true'] at hlacks
    cases env.firstMark ms r with
    | none => exact .inl rfl
    | some x => exact .inr ⟨hlacks.2, x, rfl, rfl⟩
  · rw [if_neg hlacks]
    exact .inl rfl

theorem firstMark_append (ms ns : List (SymbolRef × Span)) (r : SymbolRef) :
    env.firstMark (ms ++ ns) r = (env.firstMark ms r).or (env.firstMark ns r) := by
  unfold firstMark
  rw [List.find?_append]
  cases ms.find? fun m => m.1 = r <;> rfl

theorem firstMark_eq_none_iff {ms : List (SymbolRef × Span)} {r : SymbolRef} :
    env.firstMark ms r = none ↔ ∀ m ∈ ms, m.1 ≠ r := by
  unfold firstMark
  rw [Option.map_eq_none_iff, List.find?_eq_none]
  simp

/-- A class has the marker if it had it, or is in the table and was marked. -/
theorem has_markAll (ms : List (SymbolRef × Span)) (a : Annotations) (r : SymbolRef) :
    (env.markAll ms a).has r (some env.lib.rawJSType)
      ↔ a.has r (some env.lib.rawJSType)
        ∨ (a.lacks r (some env.lib.rawJSType) ∧ ∃ m ∈ ms, m.1 = r) := by
  have hmarked : (env.firstMark ms r).toList.any (·.symbol = some env.lib.rawJSType)
      ↔ ∃ m ∈ ms, m.1 = r := by
    cases hfirst : env.firstMark ms r with
    | none =>
      have hnone := firstMark_eq_none_iff.1 hfirst
      simpa using fun span hmem => hnone (r, span) hmem rfl
    | some x =>
      obtain ⟨m, hfind, rfl⟩ := Option.map_eq_some_iff.1 hfirst
      have hr : m.1 = r := by simpa using List.find?_some hfind
      simp only [Option.toList_some, List.any_cons, List.any_nil, marker]
      simpa using ⟨m.2, hr ▸ List.mem_of_find?_eq_some hfind⟩
  unfold Annotations.has
  rw [of_markAll, List.any_append, Bool.or_eq_true, or_comm]
  split
  next hlacks => rw [hmarked, and_iff_right hlacks]
  next hlacks => simp [hlacks]

theorem size_markAll (ms : List (SymbolRef × Span)) (a : Annotations) :
    (env.markAll ms a).lists.size = a.lists.size := by
  induction ms generalizing a with
  | nil => rfl
  | cons m ms ih => exact (ih _).trans (a.size_prependOnce _ _)

/-- What is marked lacks the marker no longer. -/
theorem lacks_markAll {ms : List (SymbolRef × Span)} {m : SymbolRef × Span} (hm : m ∈ ms)
    (a : Annotations) : (env.markAll ms a).lacks m.1 (some env.lib.rawJSType) = false := by
  rw [Bool.eq_false_iff]
  intro hlacks
  unfold Annotations.lacks at hlacks
  rw [Bool.and_eq_true, Bool.not_eq_true', size_markAll, Bool.eq_false_iff, Ne, has_markAll,
    not_or] at hlacks
  obtain ⟨hsize, hhas, hmarked⟩ := hlacks
  exact hmarked ⟨by simp [Annotations.lacks, hsize, hhas], m, hm, rfl⟩

theorem markAll_of_lacks_eq_false {ms : List (SymbolRef × Span)}
    (h : ∀ m ∈ ms, a.lacks m.1 (some env.lib.rawJSType) = false) : env.markAll ms a = a := by
  induction ms with
  | nil => rfl
  | cons m ms ih =>
    show env.markAll ms (a.prependOnce m.1 (env.marker m.2)) = a
    rw [Annotations.prependOnce_of_lacks_eq_false (h m (.head _))]
    exact ih fun m hm => h m (.tail _ hm)

/-- **Marks that are put on twice** are there once. -/
theorem markAll_markAll (ms : List (SymbolRef × Span)) (a : Annotations) :
    env.markAll ms (env.markAll ms a) = env.markAll ms a :=
  markAll_of_lacks_eq_false fun _ hm => lacks_markAll hm a

theorem exportOf?_marker (henv : env.Installed) (r : SymbolRef) (span : Span) :
    env.exportOf? r (env.marker span) = none := by
  unfold exportOf? marker
  rw [if_neg]
  intro h
  exact henv.jsExport_ne_rawJSType (Option.some.inj h).symm

/-- Marks ask for no exports. -/
theorem exportsOf_markAll (henv : env.Installed) (ms : List (SymbolRef × Span)) (a : Annotations) :
    env.exportsOf (env.markAll ms a) = env.exportsOf a := by
  funext r
  unfold exportsOf
  rw [of_markAll, List.filterMap_append]
  split
  next =>
    unfold firstMark
    cases ms.find? fun m => m.1 = r with
    | none => rfl
    | some m => simp [exportOf?_marker henv]
  next => rfl

end Env

end Interop
