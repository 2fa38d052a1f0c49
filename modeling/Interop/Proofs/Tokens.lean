import Interop.Proofs.Delivery
import Interop.Proofs.Warnings

/-!
# What type tokens come to

`env.mapTokens f t` is the tree `t` with `f u` in the place of each type token `u`.  No rule looks
at what is in such a place: where nothing is left in it, typing would stop, so that typing comes to
the same whatever is there.  Two runs over one unit, without and with the folding of type tokens,
differ in nothing else,

    without folding   core with nothing in the place of each type token
    with folding      core with a class literal there, or nothing

and the type tokens of `core` are those of the unit.
-/

namespace Interop

/-! ## Algorithm -/

/-- What a type token applies to a type. -/
def Tree.typeCallee (t : Tree) : Tree :=
  match t.node with
  | .typeApply callee _ => callee
  | _ => default

/-- The type that a type token is for. -/
def Tree.typeArg (t : Tree) : Tree :=
  match t.node with
  | .typeApply _ [arg] => arg
  | _ => default

namespace Env

/-- The type tokens in a tree, in order, other than those inside of another. -/
def tokens (env : Env) (t : Tree) : List Tree := (env.live t).filter env.isTypeToken

/-- The tree with `f u` in the place of each type token `u`. -/
def mapTokens (env : Env) (f : Tree → Tree) (t : Tree) : Tree :=
  if env.isTypeToken t then f t
  else t.withChildren (t.children.attach.map fun ⟨c, _⟩ => env.mapTokens f c)
termination_by sizeOf t
decreasing_by exact Tree.sizeOf_lt_of_mem_children ‹_›

end Env

namespace Pass

/-- What is in the place of a type token when type tokens are not folded. -/
def unfoldedToken (u : Tree) : Tree := .placeholder u.span

/-- What is there when they are: a literal of a class, or else nothing. -/
def foldedToken (env : Env) (u : Tree) : Tree :=
  if env.isClassType u.typeArg.ty then classLiteral env u u.typeArg else .placeholder u.span

end Pass

/-! ## Lemmas -/

variable {env : Env} {t : Tree} {f : Tree → Tree}

namespace Env

theorem mapTokens_of_isTypeToken (ht : env.isTypeToken t) (f : Tree → Tree) :
    env.mapTokens f t = f t := by
  rw [mapTokens, if_pos ht]

theorem mapTokens_of_not_isTypeToken (ht : env.isTypeToken t = false) (f : Tree → Tree) :
    env.mapTokens f t = t.withChildren (t.children.map (env.mapTokens f)) := by
  rw [mapTokens, if_neg (by simp [ht])]
  simp

/-- Type tokens put in their own places change nothing. -/
theorem mapTokens_self (env : Env) (t : Tree) : env.mapTokens (fun u => u) t = t := by
  cases ht : env.isTypeToken t with
  | true => exact mapTokens_of_isTypeToken ht _
  | false =>
    have hchildren : t.children.map (env.mapTokens fun u => u) = t.children := by
      rw [List.map_congr_left fun c _ => mapTokens_self env c, List.map_id']
    rw [mapTokens_of_not_isTypeToken ht, hchildren, Tree.withChildren_children]
termination_by sizeOf t
decreasing_by exact Tree.sizeOf_lt_of_mem_children ‹_›

theorem ty_mapTokens (ht : env.isTypeToken t = false) (f : Tree → Tree) :
    (env.mapTokens f t).ty = t.ty := by
  rw [mapTokens_of_not_isTypeToken ht]
  rfl

theorem mapTokens_withChildren {cs : List Tree} (ht : env.isTypeToken (t.withChildren cs) = false)
    (hlength : cs.length = t.children.length) (f : Tree → Tree) :
    env.mapTokens f (t.withChildren cs) = t.withChildren (cs.map (env.mapTokens f)) := by
  rw [mapTokens_of_not_isTypeToken ht, Tree.children_withChildren hlength,
    Tree.withChildren_withChildren hlength]

/-- Typing a node changes nothing below it. -/
theorem mapTokens_typed {cs : List Tree} {symbol : SymbolRef} {ty : Ty}
    (ht : env.isTypeToken { t.withChildren cs with symbol, ty } = false)
    (hlength : cs.length = t.children.length) (f : Tree → Tree) :
    env.mapTokens f { t.withChildren cs with symbol, ty }
      = { t.withChildren (cs.map (env.mapTokens f)) with symbol, ty } := by
  have hchildren : { t.withChildren cs with symbol, ty : Tree }.children = cs :=
    Tree.children_withChildren hlength
  rw [mapTokens_of_not_isTypeToken ht, hchildren]
  unfold Tree.withChildren
  simp only [Node.withChildren_withChildren hlength]

theorem map_ty_mapTokens {cs : List Tree} (hcs : ∀ c ∈ cs, env.isTypeToken c = false)
    (f : Tree → Tree) : (cs.map (env.mapTokens f)).map (·.ty) = cs.map (·.ty) := by
  rw [List.map_map]
  exact List.map_congr_left fun c hc => ty_mapTokens (hcs c hc) f

theorem tokens_of_isTypeToken (ht : env.isTypeToken t) : env.tokens t = [t] := by
  rw [tokens, live_eq, if_pos ht, List.filter_cons_of_pos ht, List.filter_nil]

theorem tokens_of_not_isTypeToken (ht : env.isTypeToken t = false) :
    env.tokens t = t.children.flatMap env.tokens := by
  rw [tokens, live_eq, if_neg (by simp [ht]), List.filter_cons_of_neg (by simp [ht]),
    List.filter_flatMap]
  rfl

/-- Paths of selections do not go through type tokens. -/
theorem stem_mapTokens (hf : ∀ u, (f u).stem = none) (t : Tree) :
    (env.mapTokens f t).stem = t.stem := by
  cases ht : env.isTypeToken t with
  | true =>
    obtain ⟨_, _, _, _, _, _, _, hnode, -⟩ := isTypeToken_iff.1 ht
    rw [mapTokens_of_isTypeToken ht, hf, Tree.stem_eq_none (by simp [hnode]) (by simp [hnode])]
  | false =>
    rw [mapTokens_of_not_isTypeToken ht]
    obtain ⟨node, span, ty, symbol⟩ := t
    cases node with
    | select qualifier name =>
      show (env.mapTokens f qualifier).stem.map _ = qualifier.stem.map _
      rw [stem_mapTokens hf qualifier]
    | this name => rfl
    | _ => rfl
termination_by sizeOf t
decreasing_by exact Tree.sizeOf_lt_of_mem_children (.head _)

end Env

namespace Pass

/-! ### Typing -/

open Env

/-- What a tree comes to when it is typed, whatever is in the place of type tokens. -/
def AssignsAll (env : Env) (t u : Tree) : Prop :=
  env.isTypeToken u = false
    ∧ ∀ f, Typing.assign env (env.mapTokens f t) = .ok (env.mapTokens f u)

theorem forall₂_assign_mapTokens {as cs : List Tree} (h : List.Forall₂ (AssignsAll env) as cs)
    (f : Tree → Tree) :
    List.Forall₂ (fun a b => Typing.assign env a = .ok b) (as.map (env.mapTokens f))
      (cs.map (env.mapTokens f)) := by
  rw [List.forall₂_map_left_iff, List.forall₂_map_right_iff]
  exact h.imp fun _ _ hac => hac.2 f

/-- **Typing does not look into type tokens.**  What can be typed with nothing in their places is
typed in the same way whatever is there. -/
theorem exists_of_assign_mapTokens {t t' : Tree}
    (h : Typing.assign env (env.mapTokens unfoldedToken t) = .ok t') :
    ∃ u, AssignsAll env t u ∧ t' = env.mapTokens unfoldedToken u := by
  cases htoken : env.isTypeToken t with
  | true =>
    rw [mapTokens_of_isTypeToken htoken] at h
    cases Typing.isTypable_of_assign_eq_ok h rfl
  | false =>
    by_cases hty : t.ty = .noType
    · rw [mapTokens_of_not_isTypeToken htoken] at h
      have htypable := Typing.isTypable_of_assign_eq_ok h hty
      have hlength : ∀ f, (t.children.map (env.mapTokens f)).length = t.children.length :=
        fun f => List.length_map _
      have huntyped : ∀ cs, (t.withChildren cs).ty = .noType := fun _ => hty
      obtain ⟨cs', symbol, ty, hcs', hresolve, rfl⟩ :=
        (Typing.assign_eq_ok_iff_of_untyped (huntyped _)).1 h
      rw [Tree.children_withChildren (hlength _)] at hcs'
      rw [Tree.withChildren_withChildren (hlength _)] at hresolve
      obtain ⟨cs, hcs, rfl⟩ :=
        exists_of_forall₂_map (fun c hc c' h => exists_of_assign_mapTokens h) hcs'
      have hcslength : cs.length = t.children.length := hcs.length_eq.symm
      have hu : env.isTypeToken { t.withChildren cs with symbol, ty } = false := by
        refine isTypeToken_eq_false_of_isTypable ?_
        simpa [Tree.withChildren] using htypable
      have hplace := mapTokens_typed hu hcslength
      -- what is typed is typed by the types below it
      have htys : ∀ f, (cs.map (env.mapTokens f)).map (·.ty) = cs.map (·.ty) :=
        map_ty_mapTokens (forall_of_forall₂_right (hcs.imp fun _ _ h => h.1))
      refine ⟨_, ⟨hu, fun f => ?_⟩, ?_⟩
      · rw [mapTokens_of_not_isTypeToken htoken,
          Typing.assign_eq_ok_iff_of_untyped (huntyped _)]
        refine ⟨cs.map (env.mapTokens f), symbol, ty, ?_, ?_, ?_⟩
        · rw [Tree.children_withChildren (hlength f)]
          exact forall₂_assign_mapTokens hcs f
        · rw [Tree.withChildren_withChildren (hlength f)]
          exact Typing.resolve_congr ((htys f).trans (htys _).symm) (by simpa using hcslength)
            hresolve
        · rw [hplace, Tree.withChildren_withChildren (hlength f)]
      · rw [hplace]
        unfold Tree.withChildren
        simp only [Node.withChildren_withChildren (hlength _)]
    · have hassign : ∀ f, Typing.assign env (env.mapTokens f t) = .ok (env.mapTokens f t) :=
        fun f => Typing.assign_of_typed env (Ty.isTyped_iff.2 (by rwa [ty_mapTokens htoken]))
      rw [hassign] at h
      exact ⟨t, ⟨htoken, hassign⟩, (Except.ok.inj h).symm⟩
termination_by sizeOf t
decreasing_by exact Tree.sizeOf_lt_of_mem_children hc

/-! ### Trees put together -/

variable {options : Options} {u : Tree} {scope : Scope} {cs : List Tree}

theorem tokens_of_isTypable (t : Tree) (ht : t.node.isTypable) :
    env.tokens t = t.children.flatMap env.tokens :=
  tokens_of_not_isTypeToken (isTypeToken_eq_false_of_isTypable ht)

/-- The type tokens below a node are those of its parts. -/
theorem flatMap_tokens_parts (ht : env.isTypeToken t = false) (scope : Scope) :
    (parts env t scope).flatMap env.tokens = env.tokens t := by
  rw [flatMap_parts tokens_of_isTypable ht, tokens_of_not_isTypeToken ht]

theorem mapTokens_typedDynamicCall (f : Tree → Tree) (receiver : Tree) (method : String)
    (symbol : SymbolId) (ty : Ty) (span : Span) :
    env.mapTokens f (typedDynamicCall receiver method symbol ty span)
      = typedDynamicCall (env.mapTokens f receiver) method symbol ty span := by
  unfold typedDynamicCall
  rw [mapTokens_of_not_isTypeToken (isTypeToken_eq_false_of_isTypable rfl)]
  simp only [Tree.children, Node.children, List.map_cons, List.map_nil]
  rw [mapTokens_of_not_isTypeToken (isTypeToken_eq_false_of_isTypable rfl),
    mapTokens_of_not_isTypeToken (isTypeToken_eq_false_of_isTypable rfl)]
  rfl

/-- **Putting a tree together does not look into type tokens.**  What can be put together with
nothing in their places is put together in the same way whatever is there. -/
theorem exists_of_rebuild_mapTokens {t' : Tree} (henv : env.Installed)
    (htoken : env.isTypeToken t = false)
    (hkept : Kept env t scope → env.isTypeToken (t.withChildren cs) = false)
    (hlength : cs.length = (parts env t scope).length)
    (h : rebuild env options t scope (cs.map (env.mapTokens unfoldedToken)) = .ok t') :
    ∃ u, env.isTypeToken u = false ∧ ∀ options f,
      rebuild env options t scope (cs.map (env.mapTokens f)) = .ok (env.mapTokens f u) := by
  rcases stages_cases env t scope with
    hnode | ⟨hfind, -⟩ | ⟨hfind, hvalue⟩
      | ⟨hfind, callee, args, receiver, name, ht, hcallee⟩ | ⟨hfind, receiver, name, ht⟩
  · rw [parts_of_kept hnode] at hlength
    refine ⟨_, hkept hnode, fun options f => ?_⟩
    rw [rebuild_of_kept hnode, mapTokens_withChildren (hkept hnode) hlength]
  · rw [Rule.find?_eq_typeToken_iff.1 hfind] at htoken
    cases htoken
  · rw [parts_of_enumValueDef hfind] at hlength
    obtain ⟨rhs, hnamed⟩ := named_of_isUnnamedValueDef hvalue
    have hu : env.isTypeToken ((named env t).withChildren cs) = false := by
      rw [hnamed]
      rfl
    refine ⟨_, hu, fun options f => ?_⟩
    rw [rebuild_of_enumValueDef hfind, mapTokens_withChildren hu hlength]
  · rw [parts_of_dynamicApply hfind ht hcallee] at hlength
    obtain ⟨r, as, rfl⟩ : ∃ r as, cs = r :: as := List.exists_cons_of_length_eq_add_one hlength
    rw [rebuild_of_dynamicApply hfind ht] at h
    obtain ⟨r', as', hr, has, hconf, rfl⟩ := (applyDynamic_eq_ok_iff henv).1 h
    obtain ⟨v, hv, -⟩ := exists_of_assign_mapTokens hr
    obtain ⟨vs, hvs, -⟩ := exists_of_forall₂_map (fun _ _ _ h => exists_of_assign_mapTokens h) has
    refine ⟨{ node := .apply (typedDynamicCall v "applyDynamic" env.lib.applyDynamic
        (applierTy env) callee.span) vs, span := t.span, ty := env.dynamicTy }, rfl,
      fun options f => ?_⟩
    rw [rebuild_of_dynamicApply hfind ht, applyDynamic_eq_ok_iff henv]
    refine ⟨_, _, hv.2 f, forall₂_assign_mapTokens hvs f, hconf, ?_⟩
    rw [mapTokens_of_not_isTypeToken rfl, ← mapTokens_typedDynamicCall]
    rfl
  · rw [parts_of_dynamicSelect hfind ht] at hlength
    obtain ⟨r, rfl⟩ : ∃ r, cs = [r] := List.length_eq_one_iff.1 hlength
    rw [rebuild_of_dynamicSelect hfind] at h
    obtain ⟨r', hr, hconf, rfl⟩ := (selectDynamic_eq_ok_iff henv).1 h
    obtain ⟨v, hv, -⟩ := exists_of_assign_mapTokens hr
    refine ⟨typedDynamicCall v "selectDynamic" env.lib.selectDynamic env.dynamicTy t.span,
      isTypeToken_eq_false_of_isTypable rfl, fun options f => ?_⟩
    rw [rebuild_of_dynamicSelect hfind, selectDynamic_eq_ok_iff henv]
    exact ⟨_, hv.2 f, hconf, mapTokens_typedDynamicCall f _ _ _ _ _⟩

/-! ### Two runs side by side -/

/-- The states of two runs differ only in what was reported. -/
structure Alike (s₀ s₁ : State) : Prop where
  annotations : s₀.annotations = s₁.annotations
  waiting : s₀.waiting = s₁.waiting
  forwarding : Forwarding s₀

variable {s₀ s₁ s₀' s₁' : State} {out₀ out₁ : Tree}

/-- Type tokens apart, nodes are opened in the same way with all options. -/
theorem opened_of_ne_typeToken (options' : Options) (a : Annotations)
    (hfind : Rule.find? env t scope ≠ some .typeToken) :
    opened env options a t scope = opened env options' a t scope := by
  unfold opened opening
  split
  next => rfl
  next h => exact absurd h hfind
  next => rfl
  next => rfl

theorem Alike.of_ends_opening {options' : Options} (hs : Alike s₀ s₁)
    (h₀ : Ends (opening env options t scope) s₀ () s₀')
    (h₁ : Ends (opening env options' t scope) s₁ () s₁') : Alike s₀' s₁' := by
  refine ⟨?_, ?_, forwarding_of_ends_opening h₀ hs.forwarding⟩
  all_goals
    by_cases hfind : Rule.find? env t scope = some .typeToken
    · rw [state_of_ends_opening_typeToken hfind h₀, state_of_ends_opening_typeToken hfind h₁]
      first
        | exact hs.annotations
        | exact hs.waiting
    · unfold Ends at h₀ h₁
      rw [run_opening] at h₀ h₁
      obtain ⟨-, rfl⟩ := Prod.mk.inj h₀
      obtain ⟨-, rfl⟩ := Prod.mk.inj h₁
      simp only [hs.annotations, hs.waiting, opened_of_ne_typeToken options' _ hfind]

theorem mapTokens_of_isForwarder (ht : IsForwarder t) (f : Tree → Tree) :
    env.mapTokens f t = t := by
  obtain ⟨node, span, ty, symbol⟩ := t
  obtain ⟨jsName, kind, rfl⟩ := ht
  exact mapTokens_of_not_isTypeToken rfl f

theorem tokens_of_isForwarder (ht : IsForwarder t) : env.tokens t = [] := by
  obtain ⟨node, span, ty, symbol⟩ := t
  obtain ⟨jsName, kind, rfl⟩ := ht
  exact tokens_of_not_isTypeToken rfl

/-- Forwarders put into a body are not in the way of type tokens. -/
theorem mapTokens_withMembers {members : List Tree} (ht : t.node.isTemplate)
    (hmembers : ∀ m ∈ members, IsForwarder m) (f : Tree → Tree) :
    env.mapTokens f (t.withMembers members) = (env.mapTokens f t).withMembers members := by
  obtain ⟨node, span, ty, symbol⟩ := t
  cases node with
  | template parents body =>
    have hmap : members.map (env.mapTokens f) = members := by
      rw [List.map_congr_left fun m hm => mapTokens_of_isForwarder (hmembers m hm) f, List.map_id']
    show env.mapTokens f ⟨.template parents (body ++ members), span, ty, symbol⟩ = _
    rw [mapTokens_of_not_isTypeToken rfl, mapTokens_of_not_isTypeToken rfl]
    simp [Tree.withMembers, Tree.withChildren, Tree.children, Node.withChildren, Node.children,
      hmap]
  | _ => cases ht

theorem tokens_withMembers {members : List Tree} (ht : t.node.isTemplate)
    (hmembers : ∀ m ∈ members, IsForwarder m) :
    env.tokens (t.withMembers members) = env.tokens t := by
  obtain ⟨node, span, ty, symbol⟩ := t
  cases node with
  | template parents body =>
    have hnone : members.flatMap env.tokens = [] :=
      List.flatMap_eq_nil_iff.2 fun m hm => tokens_of_isForwarder (hmembers m hm)
    show env.tokens ⟨.template parents (body ++ members), span, ty, symbol⟩ = _
    rw [tokens_of_not_isTypeToken rfl, tokens_of_not_isTypeToken rfl]
    simp [Tree.children, Node.children, hnone]
  | _ => cases ht

/-- **Leaving a node does not look into type tokens.** -/
theorem exists_of_ends_leave_mapTokens {f f' : Tree → Tree} (hu : env.isTypeToken u = false)
    (hs : Alike s₀ s₁) (h₀ : Ends (leave env (env.mapTokens f u)) s₀ out₀ s₀')
    (h₁ : Ends (leave env (env.mapTokens f' u)) s₁ out₁ s₁') :
    ∃ core, env.tokens core = env.tokens u ∧ out₀ = env.mapTokens f core
      ∧ out₁ = env.mapTokens f' core ∧ Alike s₀' s₁' := by
  have hforwarding := forwarding_of_ends_leave h₀ hs.forwarding
  have hnode : ∀ g, (env.mapTokens g u).node.isTemplate = u.node.isTemplate
      ∧ (env.mapTokens g u).symbol = u.symbol := by
    intro g
    rw [mapTokens_of_not_isTypeToken hu]
    exact ⟨Node.isTemplate_withChildren _ _, rfl⟩
  by_cases ht : u.node.isTemplate
  · have hmembers : ∀ m ∈ (s₀.waiting.filter (·.1 = u.symbol)).map (·.2), IsForwarder m := by
      intro m hm
      obtain ⟨w, hw, rfl⟩ := List.mem_map.1 hm
      exact hs.forwarding w (List.mem_of_mem_filter hw)
    unfold Ends at h₀ h₁
    rw [run_leave_of_isTemplate (by rwa [(hnode _).1]), (hnode _).2] at h₀ h₁
    obtain ⟨hout₀, rfl⟩ := Prod.mk.inj h₀
    obtain ⟨hout₁, rfl⟩ := Prod.mk.inj h₁
    refine ⟨u.withMembers ((s₀.waiting.filter (·.1 = u.symbol)).map (·.2)), ?_, ?_, ?_,
      hs.annotations, by rw [hs.waiting], hforwarding⟩
    · rw [tokens_withMembers ht hmembers]
    · rw [mapTokens_withMembers ht hmembers]
      exact (Except.ok.inj hout₀).symm
    · rw [mapTokens_withMembers ht hmembers, hs.waiting]
      exact (Except.ok.inj hout₁).symm
  · unfold Ends at h₀ h₁
    rw [run_leave_of_not_isTemplate (by rwa [(hnode _).1])] at h₀ h₁
    obtain ⟨hout₀, rfl⟩ := Prod.mk.inj h₀
    obtain ⟨hout₁, rfl⟩ := Prod.mk.inj h₁
    exact ⟨u, rfl, (Except.ok.inj hout₀).symm, (Except.ok.inj hout₁).symm, hs.annotations,
      hs.waiting, hforwarding⟩

/-! ### Type tokens -/

/-- What is reported on a type token that is not folded. -/
theorem map_mark_tokenReport_unfolded (ht : env.isTypeToken t) :
    (tokenReport env {} t).map Diagnostic.mark
      = [(.unresolvedToken, some t.typeCallee.span)] := by
  obtain ⟨callee, _, _, arg, _, _, _, hnode, -⟩ := isTypeToken_iff.1 ht
  simp only [tokenReport, hnode, Tree.typeCallee]
  rfl

/-- What is reported on a type token that is to be folded. -/
theorem map_mark_tokenReport_folded (ht : env.isTypeToken t) :
    (tokenReport env { foldTokens := true } t).map Diagnostic.mark
      = if env.isClassType t.typeArg.ty then [] else [(.tokenArgument, some t.typeArg.span)] := by
  obtain ⟨callee, _, _, arg, _, _, _, hnode, -⟩ := isTypeToken_iff.1 ht
  simp only [tokenReport, hnode, Tree.typeArg, tokenProblem?]
  cases env.isClassType arg.ty <;> rfl

theorem eq_unfoldedToken {t' : Tree} (ht : env.isTypeToken t)
    (h : tokenResult env {} t = .ok t') : t' = unfoldedToken t := by
  obtain ⟨callee, _, _, arg, _, _, _, hnode, -⟩ := isTypeToken_iff.1 ht
  have hreport := map_mark_tokenReport_unfolded ht
  rcases (tokenResult_eq_ok_iff hnode).1 h with ⟨-, rfl⟩ | ⟨hnil, -⟩
  · rfl
  · rw [hnil] at hreport
    cases hreport

theorem eq_foldedToken {t' : Tree} (ht : env.isTypeToken t)
    (h : tokenResult env { foldTokens := true } t = .ok t') : t' = foldedToken env t := by
  obtain ⟨callee, _, _, arg, _, _, _, hnode, -⟩ := isTypeToken_iff.1 ht
  have hreport := map_mark_tokenReport_folded ht
  have harg : t.typeArg = arg := by rw [Tree.typeArg, hnode]
  unfold foldedToken
  rw [harg] at hreport ⊢
  rcases (tokenResult_eq_ok_iff hnode).1 h with ⟨hne, rfl⟩ | ⟨hnil, -, rfl⟩
  · rw [if_neg]
    intro hclass
    rw [if_pos hclass] at hreport
    exact hne (List.map_eq_nil_iff.1 hreport)
  · rw [if_pos]
    by_contra hclass
    rw [if_neg hclass, hnil] at hreport
    cases hreport

/-! ### Whole runs -/

/-- **Two runs over one tree**, of which only the second folds type tokens, come to one tree with
the type tokens of the first, but for what is put in their places. -/
theorem exists_core (henv : env.Installed) (hs : Alike s₀ s₁)
    (h₀ : Ends (transform env {} t scope) s₀ out₀ s₀')
    (h₁ : Ends (transform env { foldTokens := true } t scope) s₁ out₁ s₁') :
    ∃ core, env.tokens core = env.tokens t ∧ out₀ = env.mapTokens unfoldedToken core
      ∧ out₁ = env.mapTokens (foldedToken env) core ∧ Alike s₀' s₁' := by
  induction t, scope using parts_induction env generalizing s₀ s₁ out₀ out₁ s₀' s₁' with
  | h t scope ih =>
    cases htoken : env.isTypeToken t with
    | true =>
      obtain ⟨hout₀, ha₀, hw₀⟩ := of_ends_typeToken htoken h₀
      obtain ⟨hout₁, ha₁, hw₁⟩ := of_ends_typeToken htoken h₁
      refine ⟨t, rfl, ?_, ?_, by rw [ha₀, ha₁, hs.annotations], by rw [hw₀, hw₁, hs.waiting], ?_⟩
      · rw [mapTokens_of_isTypeToken htoken, eq_unfoldedToken htoken hout₀]
      · rw [mapTokens_of_isTypeToken htoken, eq_foldedToken htoken hout₁]
      · unfold Forwarding
        rw [hw₀]
        exact hs.forwarding
    | false =>
      obtain ⟨p₀, cs₀, q₀, t₀, hopen₀, hparts₀, hrebuild₀, hleave₀⟩ := ends_transform_iff.1 h₀
      obtain ⟨p₁, cs₁, q₁, t₁, hopen₁, hparts₁, hrebuild₁, hleave₁⟩ := ends_transform_iff.1 h₁
      obtain ⟨cs, hcs, rfl, rfl, hq⟩ := hparts₀.exists_of_both hparts₁
        (S := fun c d => env.tokens d = env.tokens c ∧ ∀ rs, d.stem = some rs → c.stem = some rs)
        (fun c hc s₀ b s₀' s₁ b' s₁' hs h₀ h₁ => by
          obtain ⟨d, hd, rfl, hout₁, hs'⟩ := ih c hc hs h₀ h₁
          have hstem := (rewritten_of_ends henv h₀ hs.forwarding).1.stem_eq
          rw [stem_mapTokens fun _ => rfl] at hstem
          exact ⟨d, ⟨hd, hstem⟩, rfl, hout₁, hs'⟩)
        (hs.of_ends_opening hopen₀ hopen₁)
      have hkept : Kept env t scope → env.isTypeToken (t.withChildren cs) = false := by
        intro hkept
        rw [parts_of_kept hkept] at hcs
        rw [Bool.eq_false_iff]
        intro h
        rw [isTypeToken_of_withChildren (hcs.imp fun _ _ h => h.2) h] at htoken
        cases htoken
      have hlength := hcs.length_eq.symm
      obtain ⟨u, hu, hrebuild⟩ := exists_of_rebuild_mapTokens henv htoken hkept hlength hrebuild₀
      obtain rfl := Except.ok.inj ((hrebuild {} unfoldedToken).symm.trans hrebuild₀)
      obtain rfl := Except.ok.inj ((hrebuild _ (foldedToken env)).symm.trans hrebuild₁)
      obtain ⟨core, hcore, hout₀, hout₁, hs'⟩ :=
        exists_of_ends_leave_mapTokens hu hq hleave₀ hleave₁
      refine ⟨core, ?_, hout₀, hout₁, hs'⟩
      -- with the type tokens themselves in their places the node is put together as `u`
      have hself := hrebuild {} fun u => u
      rw [List.map_congr_left fun c _ => mapTokens_self env c, List.map_id',
        mapTokens_self] at hself
      rw [hcore, tokens_of_not_isTypeToken hu,
        flatMap_children_of_rebuild tokens_of_isTypable henv hlength hself,
        ← flatMap_tokens_parts htoken scope]
      exact (flatMap_congr_of_forall₂ hcs fun _ _ _ h => h.1.symm).symm

/-! ### Reports -/

/-- What is reported on a node that is no type token has no code of that group. -/
theorem not_isTypeToken_of_mem_report_opened {a : Annotations} {d : Diagnostic}
    (htoken : env.isTypeToken t = false) (hd : d ∈ (opened env options a t scope).2.report) :
    ¬ d.code.isTypeToken := by
  obtain ⟨rule, hfind, hreports⟩ := exists_rule_of_mem_report_opened hd
  cases rule with
  | typeToken =>
    rw [Rule.find?_eq_typeToken_iff.1 hfind] at htoken
    cases htoken
  | _ =>
    revert hreports
    cases d.code <;>
      simp [Rule.reports, Diagnostic.Code.isExport, Diagnostic.Code.isTypeToken,
        Diagnostic.Code.isStructure]

theorem not_isTypeToken_of_mem_closingReport {a : Annotations} {d : Diagnostic}
    (hd : d ∈ closingReport env a t) : ¬ d.code.isTypeToken := by
  have hexport := isExport_of_mem_closingReport hd
  revert hexport
  cases d.code <;> simp [Diagnostic.Code.isExport, Diagnostic.Code.isTypeToken]

/-- **What is reported on type tokens** is what is to be reported on each of them, in order. -/
theorem filter_isTypeToken_log (options : Options) (a : Annotations) (t : Tree) (scope : Scope) :
    (reports (log env options a t scope)).filter (·.code.isTypeToken)
      = (env.tokens t).flatMap (tokenReport env options) := by
  induction t, scope using parts_induction env with
  | h t scope ih =>
    have hclosing : (closingReport env a t).filter (·.code.isTypeToken) = [] :=
      List.filter_eq_nil_iff.2 fun _ => not_isTypeToken_of_mem_closingReport
    rw [reports_log_eq, List.filter_append, List.filter_append, List.filter_flatMap, hclosing,
      List.append_nil, List.flatMap_congr ih]
    cases htoken : env.isTypeToken t with
    | true =>
      rw [report_opened_of_isTypeToken htoken,
        List.filter_eq_self.2 fun _ => isTypeToken_of_mem_tokenReport,
        parts_of_typeToken (Rule.find?_eq_typeToken_iff.2 htoken), tokens_of_isTypeToken htoken]
      simp
    | false =>
      rw [List.filter_eq_nil_iff.2 fun _ => not_isTypeToken_of_mem_report_opened htoken,
        List.nil_append, ← flatMap_tokens_parts htoken scope, List.flatMap_assoc]

/-- What else is reported is the same with all options. -/
theorem filter_not_isTypeToken_log (options options' : Options) (a : Annotations) (t : Tree)
    (scope : Scope) :
    (reports (log env options a t scope)).filter (!·.code.isTypeToken)
      = (reports (log env options' a t scope)).filter (!·.code.isTypeToken) := by
  induction t, scope using parts_induction env with
  | h t scope ih =>
    have hopened : (opened env options a t scope).2.report.filter (!·.code.isTypeToken)
        = (opened env options' a t scope).2.report.filter (!·.code.isTypeToken) := by
      cases htoken : env.isTypeToken t with
      | true =>
        have hnone : ∀ options, (tokenReport env options t).filter (!·.code.isTypeToken) = [] :=
          fun options => List.filter_eq_nil_iff.2 fun _ hd => by
            simp [isTypeToken_of_mem_tokenReport hd]
        rw [report_opened_of_isTypeToken htoken, report_opened_of_isTypeToken htoken, hnone, hnone]
      | false =>
        rw [opened_of_ne_typeToken options' a fun hfind => ?_]
        rw [Rule.find?_eq_typeToken_iff.1 hfind] at htoken
        cases htoken
    rw [reports_log_eq, reports_log_eq, List.filter_append, List.filter_append, List.filter_append,
      List.filter_append, List.filter_flatMap, List.filter_flatMap, hopened, List.flatMap_congr ih]

/-! ## Top theorem -/

/-- **Folding type tokens changes nothing else.**  Let a unit be traversed without the folding of
type tokens and with it, from the same annotations.  Both come to one tree with the type tokens of
the unit, but for what is in their places: nothing without folding, and with it a literal of the
class, or nothing if the type is not that of a class.  Without folding there is one report for each
token, on what it applies to the type, and with it there is one for each that is not of a class, on
the type.  All other reports are the same, and so are the annotations. -/
theorem folding_changes_only_tokens (ds : List Declaration) (a : Annotations) (t out₀ out₁ : Tree)
    (s₀ s₁ : State)
    (h₀ : run (transform (.declaring ds) {} t .root) { annotations := a } = (.ok out₀, s₀))
    (h₁ : run (transform (.declaring ds) { foldTokens := true } t .root) { annotations := a }
      = (.ok out₁, s₁)) :
    (∃ core, (Env.declaring ds).tokens core = (Env.declaring ds).tokens t
        ∧ out₀ = (Env.declaring ds).mapTokens unfoldedToken core
        ∧ out₁ = (Env.declaring ds).mapTokens (foldedToken (.declaring ds)) core)
      ∧ (s₀.report.filter (·.code.isTypeToken)).map Diagnostic.mark
          = ((Env.declaring ds).tokens t).map
              (fun u => (Diagnostic.Code.unresolvedToken, some u.typeCallee.span))
      ∧ (s₁.report.filter (·.code.isTypeToken)).map Diagnostic.mark
          = (((Env.declaring ds).tokens t).filter
              fun u => !(Env.declaring ds).isClassType u.typeArg.ty).map
              (fun u => (Diagnostic.Code.tokenArgument, some u.typeArg.span))
      ∧ s₀.report.filter (!·.code.isTypeToken) = s₁.report.filter (!·.code.isTypeToken)
      ∧ s₀.annotations = s₁.annotations := by
  have henv := Env.installed_declaring ds
  have halike : Alike { annotations := a } { annotations := a } :=
    ⟨rfl, rfl, fun w hw => nomatch hw⟩
  obtain ⟨core, hcore, hout₀, hout₁, -⟩ := exists_core henv halike h₀ h₁
  have htoken : ∀ u ∈ (Env.declaring ds).tokens t, (Env.declaring ds).isTypeToken u :=
    fun u => List.of_mem_filter
  have hs₀ := (writes_transform henv {} a t .root).eq_written henv h₀
  have hs₁ := (writes_transform henv { foldTokens := true } a t .root).eq_written henv h₁
  refine ⟨⟨core, hcore, hout₀, hout₁⟩, ?_, ?_, ?_, ?_⟩
  · rw [hs₀]
    show (List.filter _ ([] ++ reports _)).map _ = _
    rw [List.nil_append, filter_isTypeToken_log, List.map_flatMap,
      List.flatMap_congr fun u hu => map_mark_tokenReport_unfolded (htoken u hu)]
    exact (List.map_eq_flatMap).symm
  · rw [hs₁]
    show (List.filter _ ([] ++ reports _)).map _ = _
    rw [List.nil_append, filter_isTypeToken_log, List.map_flatMap,
      List.flatMap_congr fun u hu => map_mark_tokenReport_folded (htoken u hu)]
    exact flatMap_ite_nil (fun u : Tree => (Env.declaring ds).isClassType u.typeArg.ty) _ _
  · rw [hs₀, hs₁]
    exact filter_not_isTypeToken_log _ _ a t .root
  · rw [hs₀, hs₁]
    show (Env.declaring ds).markAll (marks _) a = (Env.declaring ds).markAll (marks _) a
    rw [marks_log, marks_log]

/-- The type token `classOf[T]`, where `T` is a type parameter. -/
def paramToken : Tree :=
  let arg : Tree :=
    { node := .typeTree, span := ⟨15, 16⟩, ty := .param (some (Library.fresh.1.classOf + 1)) }
  fooToken.withChildren [fooToken.typeCallee, arg]

/-- The token of a class beside that of a type parameter. -/
def fooAndParamTokens : Tree :=
  { node := .packageDef [fooToken, paramToken], span := ⟨0, 20⟩, symbol := some 29 }

/-- Without folding both tokens are reported, and with it only the second. -/
theorem folding_changes_only_tokens_fooAndParam : ∃ core out₀ s₀ out₁ s₁,
    run (transform (.declaring classAndDynamic) {} fooAndParamTokens .root)
        { annotations := .blank 32 } = (.ok out₀, s₀)
      ∧ run (transform (.declaring classAndDynamic) { foldTokens := true } fooAndParamTokens .root)
        { annotations := .blank 32 } = (.ok out₁, s₁)
      ∧ (Env.declaring classAndDynamic).tokens core
          = (Env.declaring classAndDynamic).tokens fooAndParamTokens
      ∧ out₀ = (Env.declaring classAndDynamic).mapTokens unfoldedToken core
      ∧ out₁ = (Env.declaring classAndDynamic).mapTokens (foldedToken (.declaring classAndDynamic))
          core
      ∧ (s₀.report.filter (·.code.isTypeToken)).map Diagnostic.mark
          = [(.unresolvedToken, some ⟨4, 14⟩), (.unresolvedToken, some ⟨4, 14⟩)]
      ∧ (s₁.report.filter (·.code.isTypeToken)).map Diagnostic.mark
          = [(.tokenArgument, some ⟨15, 16⟩)]
      ∧ s₀.annotations = s₁.annotations := by
  obtain ⟨out₀, s₀, h₀⟩ : ∃ out₀ s₀,
      Ends (transform (.declaring classAndDynamic) {} fooAndParamTokens .root)
        { annotations := .blank 32 } out₀ s₀ := by
    refine exists_ends_of_isOk ?_
    decide +kernel
  obtain ⟨out₁, s₁, h₁⟩ : ∃ out₁ s₁,
      Ends (transform (.declaring classAndDynamic) { foldTokens := true } fooAndParamTokens .root)
        { annotations := .blank 32 } out₁ s₁ := by
    refine exists_ends_of_isOk ?_
    decide +kernel
  obtain ⟨⟨core, hcore, hout₀, hout₁⟩, hreport₀, hreport₁, -, hannotations⟩ :=
    folding_changes_only_tokens classAndDynamic (.blank 32) fooAndParamTokens out₀ out₁ s₀ s₁ h₀ h₁
  refine ⟨core, out₀, s₀, out₁, s₁, h₀, h₁, hcore, hout₀, hout₁, ?_, ?_, hannotations⟩
  · rw [hreport₀]
    decide +kernel
  · rw [hreport₁]
    decide +kernel

end Pass

end Interop
