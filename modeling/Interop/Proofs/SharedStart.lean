import Mathlib.Data.List.Infix
import Interop.Text.Dotted

/-!
# Telling dotted names apart

Two dotted names lose the pieces that both start with, and each keeps its last piece at least:

    app.ui.Window  app.Base          →   ui.Window  Base
    app.Window     app.Window.Inner  →   Window     Window.Inner
    app.Window     app.Window        →   Window     Window

What they lose is the longest shared start that leaves a piece on both sides.  Since the same
pieces go on both sides, what is left is the same only if the names were (`distinguish_pieces`).
-/

namespace Interop.Text.Dotted

/-! ## Algorithm -/

/-- The pieces of a name between its dots.  Pieces may be empty, and there is always one. -/
def pieces (name : String) : List (List Char) := name.toList.splitOn '.'

/-- Both lists start with `shared`, and both go on after it. -/
def IsSharedStart {α : Type} (shared as bs : List α) : Prop :=
  (∃ as', as' ≠ [] ∧ as = shared ++ as') ∧ ∃ bs', bs' ≠ [] ∧ bs = shared ++ bs'

/-- Nothing more can be taken off both lists: one of them is down to its last element, or they start
differently. -/
def Parted {α : Type} (as bs : List α) : Prop :=
  as.length = 1 ∨ bs.length = 1 ∨ as.head? ≠ bs.head?

/-! ## Pieces -/

theorem segments_eq_splitOn (cs : List Char) : segments cs = cs.splitOn '.' := by
  induction cs with
  | nil => rw [segments, List.splitOn_nil]
  | cons c cs ih =>
    rw [List.splitOn_cons_eq_if_modifyHead, segments, ih]
    by_cases hdot : c = '.'
    · rw [if_pos hdot, if_pos (beq_iff_eq.2 hdot)]
    · rw [if_neg hdot, if_neg (mt beq_iff_eq.1 hdot)]
      obtain ⟨seg, segs, hsegs⟩ := List.exists_cons_of_ne_nil (List.splitOn_ne_nil '.' cs)
      rw [hsegs, List.modifyHead_cons]

theorem dot_notMem_of_mem_splitOn {cs seg : List Char} (h : seg ∈ cs.splitOn '.') : '.' ∉ seg := by
  induction cs generalizing seg with
  | nil =>
    rw [List.splitOn_nil, List.mem_singleton] at h
    subst h
    exact List.not_mem_nil
  | cons c cs ih =>
    rw [List.splitOn_cons_eq_if_modifyHead] at h
    by_cases hdot : c = '.'
    · rw [if_pos (beq_iff_eq.2 hdot), List.mem_cons] at h
      rcases h with rfl | h
      · exact List.not_mem_nil
      · exact ih h
    · obtain ⟨first, rest, hsegs⟩ := List.exists_cons_of_ne_nil (List.splitOn_ne_nil '.' cs)
      rw [if_neg (mt beq_iff_eq.1 hdot), hsegs, List.modifyHead_cons, List.mem_cons] at h
      rw [hsegs] at ih
      rcases h with rfl | h
      · -- the piece that `c` was put in front of
        rw [List.mem_cons, not_or]
        exact ⟨Ne.symm hdot, ih (.head _)⟩
      · exact ih (.tail _ h)

/-- The last pieces of a name are the pieces of their join. -/
theorem pieces_ofList_join {name : String} {shared rest : List (List Char)} (hne : rest ≠ [])
    (h : pieces name = shared ++ rest) : pieces (String.ofList (join rest)) = rest := by
  unfold pieces join
  rw [String.toList_ofList]
  refine List.splitOn_intercalate '.' (fun seg hseg => ?_) hne
  have hmem : seg ∈ pieces name := by
    rw [h]
    exact List.mem_append_right shared hseg
  exact dot_notMem_of_mem_splitOn hmem

theorem pieces_ne_nil (name : String) : pieces name ≠ [] := List.splitOn_ne_nil '.' _

theorem pieces_inj {own other : String} : pieces own = pieces other ↔ own = other := by
  constructor
  · intro h
    have hjoin := congrArg (['.'].intercalate ·) h
    simp only [pieces, List.intercalate_splitOn] at hjoin
    exact String.toList_inj.1 hjoin
  · rintro rfl
    rfl

theorem distinguish_eq (own other : String) :
    distinguish own other
      = (String.ofList (join (dropShared (pieces own) (pieces other)).1),
          String.ofList (join (dropShared (pieces own) (pieces other)).2)) := by
  unfold distinguish
  rw [segments_eq_splitOn, segments_eq_splitOn]
  rfl

/-! ## Shared starts -/

section

variable {α : Type} {shared as bs : List α}

/-- **Parted rests leave nothing to share.**  A longer start would have the same element in front of
both rests, and more behind it. -/
theorem prefix_of_parted {as' bs' : List α} (has : as = shared ++ as') (hbs : bs = shared ++ bs')
    (hparted : Parted as' bs') {other : List α} (h : IsSharedStart other as bs) :
    other <+: shared := by
  obtain ⟨⟨as'', has'', has₂⟩, bs'', hbs'', hbs₂⟩ := h
  have hother : other <+: as := ⟨as'', has₂.symm⟩
  rcases List.prefix_or_prefix_of_prefix hother ⟨as', has.symm⟩ with h | ⟨more, rfl⟩
  · exact h
  · cases more with
    | nil => rw [List.append_nil]
    | cons a more =>
      rw [has, List.append_assoc, List.append_cancel_left_eq] at has₂
      rw [hbs, List.append_assoc, List.append_cancel_left_eq] at hbs₂
      have hpos : 0 < as''.length ∧ 0 < bs''.length :=
        ⟨List.length_pos_iff.2 has'', List.length_pos_iff.2 hbs''⟩
      rcases hparted with hone | hone | hhead
      · rw [has₂, List.length_append, List.length_cons] at hone
        omega
      · rw [hbs₂, List.length_append, List.length_cons] at hone
        omega
      · rw [has₂, hbs₂] at hhead
        exact absurd rfl hhead

variable [DecidableEq α]

/-- **What `dropShared` takes off** is the same on both sides, and no more can be taken off. -/
theorem exists_dropShared (has : as ≠ []) (hbs : bs ≠ []) : ∃ shared,
    as = shared ++ (dropShared as bs).1 ∧ bs = shared ++ (dropShared as bs).2
      ∧ (dropShared as bs).1 ≠ [] ∧ (dropShared as bs).2 ≠ []
      ∧ Parted (dropShared as bs).1 (dropShared as bs).2 := by
  fun_induction dropShared as bs with
  | case1 a' as b b' bs ih =>
    obtain ⟨shared, hleft, hright, hrest⟩ := ih (List.cons_ne_nil _ _) (List.cons_ne_nil _ _)
    exact ⟨b :: shared, congrArg (b :: ·) hleft, congrArg (b :: ·) hright, hrest⟩
  | case2 a a' as b b' bs hne =>
    refine ⟨[], rfl, rfl, has, hbs, .inr (.inr ?_)⟩
    intro hhead
    exact hne (Option.some.inj hhead)
  | case3 as bs hshort =>
    refine ⟨[], rfl, rfl, has, hbs, ?_⟩
    -- two lists of two elements and more are compared, so one of these is shorter
    rcases as with _ | ⟨a, _ | ⟨a', as⟩⟩
    · exact absurd rfl has
    · exact .inl rfl
    · rcases bs with _ | ⟨b, _ | ⟨b', bs⟩⟩
      · exact absurd rfl hbs
      · exact .inr (.inl rfl)
      · exact absurd rfl (hshort a a' as b b' bs rfl)

end

/-! ## Top theorem -/

/-- **Two names are told apart** by what is left of their pieces when the longest shared start is
gone.  That start leaves a piece of each name, and what is left is the same only for a name and
itself. -/
theorem distinguish_pieces (own other : String) :
    (∃ shared, pieces own = shared ++ pieces (distinguish own other).1
      ∧ pieces other = shared ++ pieces (distinguish own other).2
      ∧ IsSharedStart shared (pieces own) (pieces other)
      ∧ (∀ longer, IsSharedStart longer (pieces own) (pieces other) → longer <+: shared)
      ∧ Parted (pieces (distinguish own other).1) (pieces (distinguish own other).2))
    ∧ ((distinguish own other).1 = (distinguish own other).2 ↔ own = other) := by
  obtain ⟨shared, hown, hother, hleft, hright, hparted⟩ :=
    exists_dropShared (pieces_ne_nil own) (pieces_ne_nil other)
  have ha : pieces (distinguish own other).1 = (dropShared (pieces own) (pieces other)).1 := by
    rw [distinguish_eq]
    exact pieces_ofList_join hleft hown
  have hb : pieces (distinguish own other).2 = (dropShared (pieces own) (pieces other)).2 := by
    rw [distinguish_eq]
    exact pieces_ofList_join hright hother
  rw [← ha] at hown hleft hparted
  rw [← hb] at hother hright hparted
  refine ⟨⟨shared, hown, hother, ⟨⟨_, hleft, hown⟩, _, hright, hother⟩, ?_, hparted⟩, ?_⟩
  · intro longer hlonger
    exact prefix_of_parted hown hother hparted hlonger
  · rw [← pieces_inj, ← @pieces_inj own other, hown, hother, List.append_cancel_left_eq]

/-- One name is a start of the other, and keeps its last piece all the same. -/
example : distinguish "app.Window" "app.Window.Inner" = ("Window", "Window.Inner") := by decide

end Interop.Text.Dotted
