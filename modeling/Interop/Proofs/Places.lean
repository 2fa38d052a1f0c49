import Interop.Proofs.Leftovers

/-!
# What takes the place of a node

What becomes of a node stands where the node stood.  A node that no rule replaces stays the same
over other subtrees: its kind with all that it carries, its type and its symbol are kept, and only a
body may get further members.  A dynamic shorthand or a type token is replaced by a call or a
literal whose type fits in the place, or else there is a report and nothing is left:

    transform t = ok out  →  t.Resembles out                                (t not replaced)
                             out fits the place of t, or is empty           (t replaced)
-/

namespace Interop

/-! ## Algorithm -/

/-- The kind of a node, with the name, constant or export that it carries. -/
def Node.shape {α : Type} (n : Node α) : Node Unit := n.withChildren []

/-- `u` is the node `t` over subtrees of its own. -/
structure Tree.Resembles (t u : Tree) : Prop where
  span_eq : u.span = t.span
  shape_eq : u.node.shape = t.node.shape
  ty_eq : u.ty = t.ty
  symbol_eq : u.symbol = t.symbol

/-- The node is a call or a literal. -/
def Node.isExpression {α : Type} : Node α → Bool
  | apply _ _ | literal _ => true
  | _ => false

/-! ## Lemmas -/

theorem Node.shape_withChildren {α β : Type} [Inhabited β] (n : Node α) (bs : List β) :
    (n.withChildren bs).shape = n.shape := by
  cases n <;> simp [shape, withChildren]

namespace Tree.Resembles

variable {t u v : Tree}

theorem refl (t : Tree) : t.Resembles t := ⟨rfl, rfl, rfl, rfl⟩

theorem trans (h : t.Resembles u) (h' : u.Resembles v) : t.Resembles v where
  span_eq := h'.span_eq.trans h.span_eq
  shape_eq := h'.shape_eq.trans h.shape_eq
  ty_eq := h'.ty_eq.trans h.ty_eq
  symbol_eq := h'.symbol_eq.trans h.symbol_eq

theorem withChildren (t : Tree) (cs : List Tree) : t.Resembles (t.withChildren cs) :=
  ⟨rfl, Node.shape_withChildren _ _, rfl, rfl⟩

end Tree.Resembles

namespace Pass

/-- The rule puts another tree in the place of the node. -/
def Rule.replaces : Rule → Bool
  | typeToken | dynamicApply | dynamicSelect => true
  | _ => false

/-- The node is a dynamic shorthand, as matched by its rule, or a type token. -/
def Replaced (env : Env) (t : Tree) (scope : Scope) : Prop :=
  ∃ rule, Rule.find? env t scope = some rule ∧ rule.replaces

variable {env : Env} {options : Options} {t u : Tree} {scope : Scope} {s s' : State} {out : Tree}

/-- A value that gets its name is the same definition. -/
theorem resembles_named (h : env.isUnnamedValueDef t) : t.Resembles (named env t) := by
  obtain ⟨rhs, hnamed⟩ := named_of_isUnnamedValueDef h
  obtain ⟨rhs₀, _, _, ht, -⟩ := Env.isUnnamedValueDef_iff.1 h
  rw [hnamed]
  exact ⟨rfl, by rw [ht]; rfl, rfl, rfl⟩

/-- A node that is not replaced is put together again. -/
theorem resembles_of_rebuild (h : ¬ Replaced env t scope) {cs : List Tree}
    (hrebuild : rebuild env options t scope cs = .ok u) : t.Resembles u := by
  rcases stages_cases env t scope with
    hkept | ⟨hfind, -⟩ | ⟨hfind, hvalue⟩ | ⟨hfind, -⟩ | ⟨hfind, -⟩
  · rw [rebuild_of_kept hkept] at hrebuild
    cases hrebuild
    exact .withChildren t cs
  · exact absurd ⟨_, hfind, rfl⟩ h
  · rw [rebuild_of_enumValueDef hfind] at hrebuild
    cases hrebuild
    exact (resembles_named hvalue).trans (.withChildren _ cs)
  · exact absurd ⟨_, hfind, rfl⟩ h
  · exact absurd ⟨_, hfind, rfl⟩ h

/-- Leaving a node may only add members to it. -/
theorem resembles_of_ends_leave (h : Ends (leave env t) s out s') : t.Resembles out := by
  rcases ends_leave h with ⟨parents, body, ht, rfl, -⟩ | ⟨-, rfl, -⟩
  · exact ⟨rfl, by simp [ht, Node.shape, Node.withChildren], rfl, rfl⟩
  · exact .refl _

/-- **A node that is not replaced** is kept over other subtrees. -/
theorem resembles_of_ends (h : Ends (transform env options t scope) s out s')
    (hnot : ¬ Replaced env t scope) : t.Resembles out := by
  obtain ⟨_, cs, _, u, -, -, hrebuild, hleave⟩ := ends_transform_iff.1 h
  exact (resembles_of_rebuild hnot hrebuild).trans (resembles_of_ends_leave hleave)

/-- What is no body is left as it is. -/
theorem eq_of_ends_leave (h : Ends (leave env t) s out s') (ht : t.node.isExpression) :
    out = t := by
  rcases ends_leave h with ⟨parents, body, hnode, -⟩ | ⟨-, rfl, -⟩
  · rw [hnode] at ht
    cases ht
  · rfl

/-- **In the place of a dynamic shorthand** stands a call that fits there. -/
theorem expression_of_dynamic (henv : env.Installed)
    (h : Ends (transform env options t scope) s out s')
    (hfind : Rule.find? env t scope = some .dynamicApply
      ∨ Rule.find? env t scope = some .dynamicSelect) :
    out.span = t.span ∧ out.node.isExpression ∧ env.conforms out.ty t.ty := by
  obtain ⟨_, cs, _, u, -, -, hrebuild, hleave⟩ := ends_transform_iff.1 h
  rcases hfind with hfind | hfind
  · obtain ⟨callee, args, ht, -⟩ := Env.isDynamicApply_iff.1 (Rule.applies_of_find?_eq_some hfind)
    rw [rebuild_of_dynamicApply hfind ht] at hrebuild
    obtain ⟨_, _, _, _, hty, rfl⟩ := (applyDynamic_eq_ok_iff henv).1 hrebuild
    rw [eq_of_ends_leave hleave rfl]
    exact ⟨rfl, rfl, hty⟩
  · rw [rebuild_of_dynamicSelect hfind] at hrebuild
    obtain ⟨_, _, hty, rfl⟩ := (selectDynamic_eq_ok_iff henv).1 hrebuild
    rw [eq_of_ends_leave hleave rfl]
    exact ⟨rfl, rfl, hty⟩

/-- What is reported on a type token is one problem of the token. -/
theorem exists_of_tokenReport_ne_nil {callee arg : Tree} (ht : t.node = .typeApply callee [arg])
    (h : tokenReport env options t ≠ []) :
    ∃ d, tokenReport env options t = [d] ∧ d.code.isTypeToken := by
  unfold tokenReport at h ⊢
  rw [ht] at h ⊢
  simp only at h ⊢
  cases hproblem : tokenProblem? env options callee arg with
  | none =>
    rw [hproblem] at h
    exact absurd rfl h
  | some d => exact ⟨d, rfl, isTypeToken_of_tokenProblem? hproblem⟩

/-- **In the place of a type token** stands a literal that fits there, or the token is reported and
nothing is left. -/
theorem token_of_ends (h : Ends (transform env options t scope) s out s')
    (ht : env.isTypeToken t) :
    (∃ d, d.code.isTypeToken ∧ s'.report = s.report ++ [d] ∧ out = .placeholder t.span)
    ∨ (out.span = t.span ∧ out.node.isExpression ∧ env.conforms out.ty t.ty) := by
  have hfind : Rule.find? env t scope = some .typeToken := Rule.find?_eq_typeToken_iff.2 ht
  obtain ⟨callee, _, _, arg, _, _, _, hnode, -⟩ := Env.isTypeToken_iff.1 ht
  obtain ⟨s₁, cs, s₂, u, hopen, hparts, hrebuild, hleave⟩ := ends_transform_iff.1 h
  rw [rebuild_of_typeToken hfind] at hrebuild
  rcases (tokenResult_eq_ok_iff hnode).1 hrebuild with ⟨hreport, rfl⟩ | ⟨-, hty, rfl⟩
  · obtain ⟨d, hd, hcode⟩ := exists_of_tokenReport_ne_nil hnode hreport
    refine .inl ⟨d, hcode, ?_⟩
    -- the token is opened by its report, and has no parts
    have hs₁ : s₁.report = s.report ++ [d] := by
      unfold Ends opening at hopen
      rw [hfind] at hopen
      simp only [run_emit, hd] at hopen
      obtain ⟨-, rfl⟩ := Prod.mk.inj hopen
      rfl
    rw [parts_of_typeToken hfind] at hparts
    cases hparts
    rcases ends_leave hleave with ⟨_, _, htemplate, -⟩ | ⟨-, rfl, rfl⟩
    · cases htemplate
    · rw [← hs₁]
      exact ⟨List.append_nil _, rfl⟩
  · rw [eq_of_ends_leave hleave rfl]
    exact .inr ⟨rfl, rfl, hty⟩

/-- **What takes the place of a node** that is replaced: an expression that fits, or nothing if it
was a type token that is reported. -/
theorem replacement_of_ends (henv : env.Installed)
    (h : Ends (transform env options t scope) s out s') (hreplaced : Replaced env t scope) :
    out.span = t.span
      ∧ ((∃ d, env.isTypeToken t ∧ d.code.isTypeToken ∧ s'.report = s.report ++ [d]
          ∧ out = .placeholder t.span)
        ∨ (out.node.isExpression ∧ env.conforms out.ty t.ty)) := by
  obtain ⟨rule, hfind, hrule⟩ := hreplaced
  cases rule with
  | typeToken =>
    have ht := Rule.find?_eq_typeToken_iff.1 hfind
    rcases token_of_ends h ht with ⟨d, hcode, hreport, rfl⟩ | ⟨hspan, hexpression⟩
    · exact ⟨rfl, .inl ⟨d, ht, hcode, hreport, rfl⟩⟩
    · exact ⟨hspan, .inr hexpression⟩
  | dynamicApply =>
    obtain ⟨hspan, hexpression⟩ := expression_of_dynamic henv h (.inl hfind)
    exact ⟨hspan, .inr hexpression⟩
  | dynamicSelect =>
    obtain ⟨hspan, hexpression⟩ := expression_of_dynamic henv h (.inr hfind)
    exact ⟨hspan, .inr hexpression⟩
  | _ => cases hrule

/-! ## Top theorem -/

/-- **Every node keeps its place.**  Whatever was written before and is around it, a tree comes to
one at the same place.  If no rule replaces it, it is the same node over other subtrees; else what
stands there is an expression whose type fits, or it is a type token that was reported, and
nothing stands there. -/
theorem place_kept (ds : List Declaration) (options : Options) (t : Tree) (scope : Scope)
    (s s' : State) (out : Tree)
    (h : Ends (transform (.declaring ds) options t scope) s out s') :
    out.span = t.span
      ∧ (¬ Replaced (.declaring ds) t scope → t.Resembles out)
      ∧ (Replaced (.declaring ds) t scope →
          (∃ d, (Env.declaring ds).isTypeToken t ∧ d.code.isTypeToken
            ∧ s'.report = s.report ++ [d] ∧ out = .placeholder t.span)
          ∨ (out.node.isExpression ∧ (Env.declaring ds).conforms out.ty t.ty)) := by
  by_cases hreplaced : Replaced (.declaring ds) t scope
  · obtain ⟨hspan, hplace⟩ := replacement_of_ends (Env.installed_declaring ds) h hreplaced
    exact ⟨hspan, fun hnot => absurd hreplaced hnot, fun _ => hplace⟩
  · have hsame := resembles_of_ends h hreplaced
    exact ⟨hsame.span_eq, fun _ => hsame, fun hyes => absurd hyes hreplaced⟩

/-- The selection `d.x` of a dynamic value, where any value is wanted. -/
def selectedForAny : Tree :=
  { node := .select
      { node := .ident "d", span := ⟨0, 1⟩, symbol := some 30
        ty := Library.classTy Library.fresh.1.jsDynamic } "x"
    span := ⟨0, 3⟩, ty := Library.classTy Library.fresh.1.anyClass }

/-- The selection is replaced by a call, which is dynamic and so fits. -/
theorem place_kept_selectedForAny :
    ∃ out s, Ends (transform (.declaring dynamicValue) {} selectedForAny { hostClass := true })
          { annotations := .blank 31, waiting := [(some 29, selectedForAny)] } out s
      ∧ out.span = ⟨0, 3⟩ ∧ out.node.isExpression
      ∧ (Env.declaring dynamicValue).conforms out.ty selectedForAny.ty := by
  obtain ⟨out, s, hends⟩ : ∃ out s,
      Ends (transform (.declaring dynamicValue) {} selectedForAny { hostClass := true })
        { annotations := .blank 31, waiting := [(some 29, selectedForAny)] } out s := by
    refine exists_ends_of_isOk ?_
    decide +kernel
  have hfind : Rule.find? (.declaring dynamicValue) selectedForAny { hostClass := true }
      = some .dynamicSelect := by
    decide +kernel
  obtain ⟨hspan, -, hplace⟩ := place_kept dynamicValue {} selectedForAny _ _ s out hends
  refine ⟨out, s, hends, hspan, ?_⟩
  rcases hplace ⟨_, hfind, rfl⟩ with ⟨d, htoken, -⟩ | hexpression
  · have hnot : (Env.declaring dynamicValue).isTypeToken selectedForAny = false := by
      decide +kernel
    rw [hnot] at htoken
    cases htoken
  · exact hexpression

end Pass

end Interop
