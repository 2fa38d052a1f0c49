import Interop.Proofs.Rewrites

/-!
# Members put behind others

`t.spliced fs` is the tree `t` with further members behind those of each body: the body of the
symbol `r` gets the trees `fs r`.  Bodies are neither typed nor looked into when the trees around
them are put together, so both can be done in either order:

    rebuild t (cs.map spliced)  =  rebuild t cs, with its children spliced
-/

namespace Interop

/-- The body of a declaration. -/
def Node.isTemplate {α : Type} : Node α → Bool
  | template _ _ => true
  | _ => false

@[simp] theorem Node.isTemplate_withChildren {α β : Type} [Inhabited β] (n : Node α)
    (bs : List β) : (n.withChildren bs).isTemplate = n.isTemplate := by
  cases n <;> rfl

namespace Tree

/-! ## Algorithm -/

/-- A body with further members; any other tree itself. -/
def withMembers (t : Tree) (members : List Tree) : Tree :=
  match t.node with
  | .template parents body => { t with node := .template parents (body ++ members) }
  | _ => t

/-- The tree with the trees for its symbol behind the members of each body. -/
def spliced (fs : SymbolRef → List Tree) (t : Tree) : Tree :=
  (t.withChildren (t.children.attach.map fun ⟨c, _⟩ => c.spliced fs)).withMembers (fs t.symbol)
termination_by sizeOf t
decreasing_by exact sizeOf_lt_of_mem_children ‹_›

/-! ## Lemmas -/

variable {fs : SymbolRef → List Tree} {t : Tree}

theorem withMembers_of_not_isTemplate (ht : t.node.isTemplate = false) (members : List Tree) :
    t.withMembers members = t := by
  unfold withMembers
  split
  next hnode =>
    rw [hnode] at ht
    cases ht
  next => rfl

@[simp] theorem withMembers_nil (t : Tree) : t.withMembers [] = t := by
  obtain ⟨node, span, ty, symbol⟩ := t
  cases node <;> simp [withMembers]

theorem spliced_eq (fs : SymbolRef → List Tree) (t : Tree) :
    t.spliced fs = (t.withChildren (t.children.map (spliced fs))).withMembers (fs t.symbol) := by
  rw [spliced]
  simp

theorem spliced_of_not_isTemplate (ht : t.node.isTemplate = false) :
    t.spliced fs = t.withChildren (t.children.map (spliced fs)) := by
  rw [spliced_eq, withMembers_of_not_isTemplate (by simpa [withChildren] using ht)]

@[simp] theorem ty_withMembers (t : Tree) (members : List Tree) :
    (t.withMembers members).ty = t.ty := by
  unfold withMembers
  split <;> rfl

@[simp] theorem ty_spliced (fs : SymbolRef → List Tree) (t : Tree) : (t.spliced fs).ty = t.ty := by
  rw [spliced_eq, ty_withMembers]
  rfl

theorem isTemplate_spliced (fs : SymbolRef → List Tree) (t : Tree) :
    (t.spliced fs).node.isTemplate = t.node.isTemplate := by
  rw [spliced_eq]
  obtain ⟨node, span, ty, symbol⟩ := t
  cases node <;> rfl

theorem spliced_literal (value : Constant) (span : Span) (ty : Ty) (symbol : SymbolRef) :
    spliced fs { node := .literal value, span, ty, symbol }
      = { node := .literal value, span, ty, symbol } := by
  rw [spliced_of_not_isTemplate rfl]
  rfl

end Tree

open Interop.Tree

variable {env : Env} {fs : SymbolRef → List Tree} {t t' : Tree}

/-! ## Typing -/

/-- What can be typed with further members can be typed without them. -/
theorem assign_spliced {t t' : Tree} (h : Typing.assign env (t.spliced fs) = .ok t') :
    ∃ u, Typing.assign env t = .ok u ∧ t' = u.spliced fs := by
  by_cases hty : t.ty = .noType
  · have htypable := Typing.isTypable_of_assign_eq_ok h (by rw [ty_spliced, hty])
    have ht : t.node.isTemplate = false := by
      rw [← isTemplate_spliced fs]
      cases hnode : (t.spliced fs).node <;>
        simp [hnode, Node.isTypable, Node.isTemplate] at htypable ⊢
    rw [spliced_of_not_isTemplate ht] at h
    have hlength : (t.children.map (spliced fs)).length = t.children.length := List.length_map _
    have huntyped : (t.withChildren (t.children.map (spliced fs))).ty = .noType := hty
    obtain ⟨cs', symbol, ty, hcs', hresolve, rfl⟩ :=
      (Typing.assign_eq_ok_iff_of_untyped huntyped).1 h
    rw [children_withChildren hlength] at hcs'
    obtain ⟨cs, hcs, rfl⟩ := exists_of_forall₂_map (fun c hc c' h => assign_spliced h) hcs'
    rw [withChildren_withChildren hlength] at hresolve
    have htys : cs.map (·.ty) = (cs.map (spliced fs)).map (·.ty) := by simp
    have hcslength : cs.length = t.children.length := hcs.length_eq.symm
    refine ⟨_, (Typing.assign_eq_ok_iff_of_untyped hty).2 ⟨cs, symbol, ty, hcs,
      Typing.resolve_congr htys (by simpa using hcslength) hresolve, rfl⟩, ?_⟩
    rw [spliced_of_not_isTemplate (by simpa [withChildren] using ht)]
    rw [children_of_withChildren hcslength]
    unfold withChildren
    simp only [Node.withChildren_withChildren hlength, Node.withChildren_withChildren hcslength]
  · rw [Typing.assign_of_typed env (Ty.isTyped_iff.2 (by rwa [ty_spliced]))] at h
    cases h
    exact ⟨t, Typing.assign_of_typed env (Ty.isTyped_iff.2 hty), rfl⟩
termination_by sizeOf t
decreasing_by exact sizeOf_lt_of_mem_children hc

/-! ## Trees put together -/

theorem spliced_typedDynamicCall (receiver : Tree) (method : String) (symbol : SymbolId) (ty : Ty)
    (span : Span) : (typedDynamicCall receiver method symbol ty span).spliced fs
      = typedDynamicCall (receiver.spliced fs) method symbol ty span := by
  unfold typedDynamicCall
  rw [spliced_of_not_isTemplate rfl]
  simp only [Tree.children, Node.children, List.map_cons, List.map_nil]
  rw [spliced_of_not_isTemplate rfl, Tree.literal, spliced_literal]
  rfl

namespace Pass

variable {options : Options} {scope : Scope} {bs : List Tree}

/-- Putting a tree together does not look into the bodies of its parts. -/
theorem rebuild_spliced (henv : env.Installed) (hlength : bs.length = (parts env t scope).length)
    (h : rebuild env options t scope (bs.map (spliced fs)) = .ok t') :
    ∃ u, rebuild env options t scope bs = .ok u
      ∧ t' = u.withChildren (u.children.map (spliced fs)) := by
  rcases stages_cases env t scope with
    hkept | ⟨hfind, callee, arg, ht⟩ | ⟨hfind, -⟩
      | ⟨hfind, callee, args, receiver, name, ht, hcallee⟩ | ⟨hfind, receiver, name, ht⟩
  · rw [rebuild_of_kept hkept] at h ⊢
    rw [parts_of_kept hkept] at hlength
    cases h
    refine ⟨_, rfl, ?_⟩
    rw [children_withChildren hlength, withChildren_withChildren hlength]
  · rw [rebuild_of_typeToken hfind] at h ⊢
    refine ⟨t', h, ?_⟩
    rcases (tokenResult_eq_ok_iff ht).1 h with ⟨-, rfl⟩ | ⟨-, -, rfl⟩
    · rfl
    · rfl
  · rw [rebuild_of_enumValueDef hfind] at h ⊢
    rw [parts_of_enumValueDef hfind] at hlength
    cases h
    refine ⟨_, rfl, ?_⟩
    rw [children_withChildren hlength, withChildren_withChildren hlength]
  · rw [parts_of_dynamicApply hfind ht hcallee] at hlength
    obtain ⟨r, as, rfl⟩ : ∃ r as, bs = r :: as := List.exists_cons_of_length_eq_add_one hlength
    rw [rebuild_of_dynamicApply hfind ht] at h ⊢
    simp only [List.map_cons, List.headD_cons, List.tail_cons] at h ⊢
    obtain ⟨r', as', hr, has, hconf, rfl⟩ := (applyDynamic_eq_ok_iff henv).1 h
    obtain ⟨u, hu, rfl⟩ := assign_spliced hr
    obtain ⟨us, hus, rfl⟩ := exists_of_forall₂_map (fun _ _ _ h => assign_spliced h) has
    refine ⟨_, (applyDynamic_eq_ok_iff henv).2 ⟨u, us, hu, hus, hconf, rfl⟩, ?_⟩
    rw [← spliced_typedDynamicCall]
    rfl
  · rw [parts_of_dynamicSelect hfind ht] at hlength
    obtain ⟨r, rfl⟩ : ∃ r, bs = [r] := List.length_eq_one_iff.1 hlength
    rw [rebuild_of_dynamicSelect hfind] at h ⊢
    simp only [List.map_cons, List.headD_cons] at h ⊢
    obtain ⟨r', hr, hconf, rfl⟩ := (selectDynamic_eq_ok_iff henv).1 h
    obtain ⟨u, hu, rfl⟩ := assign_spliced hr
    refine ⟨_, (selectDynamic_eq_ok_iff henv).2 ⟨u, hu, hconf, rfl⟩, ?_⟩
    rw [← spliced_typedDynamicCall, spliced_of_not_isTemplate rfl]

end Pass

end Interop
