import Interop.Proofs.Exports
import Mathlib.Data.List.Infix

/-!
# The forwarders of a method

A method that may be shown has one forwarder for each of its exports, in order, but none for a name
with two underscores in a row:

    forwarders m  =  [forwarder m e  for e in exportsOf m  if e.jsName has no `__`]

Whether it may be shown does not depend on its exports, and nor does how it is shown.
-/

namespace Interop

theorem hasDoubleUnderscore_iff {cs : List Char} : hasDoubleUnderscore cs ↔ ['_', '_'] <:+: cs := by
  fun_induction hasDoubleUnderscore cs with
  | case1 cs =>
    refine iff_of_true rfl ⟨[], cs, rfl⟩
  | case2 c cs h ih =>
    rw [ih, List.infix_cons_iff, or_iff_right]
    rintro ⟨rest, hrest⟩
    cases hrest
    exact h rest rfl rfl
  | case3 => simp

theorem flatMap_ite_nil {α β : Type} (p : α → Bool) (f : α → β) (as : List α) :
    (as.flatMap fun a => if p a then [] else [f a]) = (as.filter fun a => !p a).map f := by
  induction as with
  | nil => rfl
  | cons a as ih =>
    rw [List.flatMap_cons, ih, List.filter_cons]
    cases p a <;> rfl

/-! ## Algorithm -/

/-- The member that shows the method `s` for an export. -/
def Export.forwarder (e : Export) (method : SymbolRef) (s : Symbol) : Tree :=
  { node := .forwarder e.jsName s.exportKind, span := e.span, ty := s.info, symbol := method }

namespace Env

variable (env : Env)

/-- The method may be shown by forwarders. -/
def isShown (s : Symbol) : Bool :=
  !s.isLocal && !s.isConstructor && s.isExportable && !s.has .macroMod && !env.isJsAny s.owner

/-- The members that show a method. -/
def forwarders (a : Annotations) (method : SymbolRef) : List Tree :=
  match env.table.get? method with
  | none => []
  | some s =>
    if env.isShown s then
      ((env.exportsOf a method).filter fun e => !hasDoubleUnderscore e.jsName.toList).map
        (·.forwarder method s)
    else []

/-! ## Lemmas -/

variable {env} {a : Annotations} {method : SymbolRef} {s : Symbol}

theorem methodProblem?_eq_none_iff : env.methodProblem? s = none
    ↔ s.isExportable ∧ ¬ s.has .macroMod ∧ ¬ env.isJsAny s.owner := by
  unfold methodProblem?
  grind

theorem flatMap_of_mapM_eq_some {α β γ : Type} {f : α → Option β} {g : β → List γ}
    {h : α → List γ} {as : List α} {bs : List β} (hf : ∀ a b, f a = some b → g b = h a)
    (hbs : as.mapM f = some bs) : bs.flatMap g = as.flatMap h := by
  induction as generalizing bs with
  | nil =>
    cases hbs
    rfl
  | cons a as ih =>
    rw [List.mapM_cons] at hbs
    obtain ⟨b, hb, hbs⟩ := Option.bind_eq_some_iff.1 hbs
    obtain ⟨bs', hbs', hbs⟩ := Option.bind_eq_some_iff.1 hbs
    cases hbs
    rw [List.flatMap_cons, List.flatMap_cons, hf a b hb, ih hbs']

theorem fst_of_exportMember? {e : Export} {r : List Tree × Report}
    (h : env.exportMember? method s e = some r) :
    r.1 = if hasDoubleUnderscore e.jsName.toList || s.isConstructor then []
      else [e.forwarder method s] := by
  unfold exportMember? at h
  split at h
  next hname =>
    cases h
    simp [hname]
  next hname =>
    split at h
    next hctor =>
      obtain ⟨c, -, h⟩ := Option.bind_eq_some_iff.1 h
      cases h
      simp [hctor]
    next hctor =>
      cases h
      simp [hname, hctor, Export.forwarder]

/-- **The forwarders of a method.** -/
theorem fst_of_exportMembers? {r : List Tree × Report} (h : env.exportMembers? a method = some r) :
    r.1 = env.forwarders a method := by
  unfold exportMembers? at h
  unfold forwarders
  split at h
  next s first rest hget hexports =>
    rw [hget]
    simp only
    split at h
    next hlocal =>
      cases h
      simp [isShown, hlocal]
    next hlocal =>
      split at h
      next problem hproblem =>
        cases h
        have hshown : ¬ env.isShown s := by
          intro hshown
          simp only [isShown, Bool.and_eq_true, Bool.not_eq_true'] at hshown
          have hnone : env.methodProblem? s = none := methodProblem?_eq_none_iff.2
            ⟨hshown.1.1.2, by simp [hshown.1.2], by simp [hshown.2]⟩
          rw [hnone] at hproblem
          cases hproblem
        rw [if_neg hshown]
      next hproblem =>
        obtain ⟨parts, hparts, h⟩ := Option.bind_eq_some_iff.1 h
        cases h
        obtain ⟨hexportable, hmacro, hjs⟩ := methodProblem?_eq_none_iff.1 hproblem
        rw [flatMap_of_mapM_eq_some (fun e r he => fst_of_exportMember? he) hparts, hexports]
        cases hctor : s.isConstructor with
        | true => simp [isShown, hctor]
        | false =>
          have hshown : env.isShown s := by
            simp [isShown, hlocal, hctor, hexportable, hmacro, hjs]
          rw [if_pos hshown, ← flatMap_ite_nil]
          simp
  next hnone =>
    cases h
    split
    next => rfl
    next s hget =>
      cases hexports : env.exportsOf a method with
      | nil => simp
      | cons first rest => exact absurd hexports (hnone s first rest hget)

/-- A forwarder stands for one of the exports. -/
theorem exists_of_mem_forwarders {f : Tree} (hf : f ∈ env.forwarders a method) :
    ∃ s e, env.table.get? method = some s ∧ env.isShown s ∧ e ∈ env.exportsOf a method
      ∧ f = e.forwarder method s := by
  unfold forwarders at hf
  split at hf
  next => cases hf
  next s hget =>
    split at hf
    next hshown =>
      obtain ⟨e, he, rfl⟩ := List.mem_map.1 hf
      exact ⟨s, e, hget, hshown, (List.mem_filter.1 he).1, rfl⟩
    next => cases hf

/-- A method without exports has nothing to show and nothing wrong. -/
theorem exportMembers?_of_exportsOf_eq_nil (h : env.exportsOf a method = []) :
    env.exportMembers? a method = some ([], []) := by
  unfold exportMembers?
  split
  next first rest _ hexports =>
    rw [h] at hexports
    cases hexports
  next => rfl

theorem forwarders_of_exportsOf_eq_nil (h : env.exportsOf a method = []) :
    env.forwarders a method = [] := by
  rw [← fst_of_exportMembers? (exportMembers?_of_exportsOf_eq_nil h)]

theorem forwarders_congr {b : Annotations} (h : env.exportsOf a = env.exportsOf b)
    (method : SymbolRef) : env.forwarders a method = env.forwarders b method := by
  unfold forwarders
  rw [h]

end Env

end Interop
