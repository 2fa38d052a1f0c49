import Interop.Proofs.Exposed
import Interop.Proofs.Openings
import Interop.Proofs.Visits

/-!
# What is left over

The tree that takes the place of a node has the type that `resultTy` says, has exactly the
shorthands that come to light in it, and has a type token only if the node had one:

    leftovers (what becomes of t)  =  exposed t

`Rewritten` says so of one node, together with what typing makes of the tree, and is shown rule by
rule along the parts.
-/

namespace Interop

/-- The symbols along a path of selections that starts at an enclosing class or package. -/
def Tree.stem : Tree → Option (List SymbolRef)
  | ⟨.select qualifier _, _, _, symbol⟩ => qualifier.stem.map (symbol :: ·)
  | ⟨.this _, _, _, symbol⟩ => some [symbol]
  | _ => none

theorem Tree.stem_eq_cons_iff {t : Tree} {r : SymbolRef} {rs : List SymbolRef} :
    t.stem = some (r :: rs) ↔
      (∃ qualifier name, t.node = .select qualifier name ∧ t.symbol = r ∧ qualifier.stem = some rs)
      ∨ (∃ name, t.node = .this name ∧ t.symbol = r ∧ rs = []) := by
  obtain ⟨node, span, ty, symbol⟩ := t
  cases node <;> simp [stem]
  all_goals grind

theorem Tree.stem_ne_nil (t : Tree) : t.stem ≠ some [] := by
  obtain ⟨node, span, ty, symbol⟩ := t
  cases node <;> simp [stem]

theorem Tree.stem_eq_none {t : Tree} (hselect : ∀ qualifier name, t.node ≠ .select qualifier name)
    (hthis : ∀ name, t.node ≠ .this name) : t.stem = none := by
  rw [Option.eq_none_iff_forall_ne_some]
  rintro (_ | ⟨r, rs⟩) h
  · exact t.stem_ne_nil h
  · rcases Tree.stem_eq_cons_iff.1 h with ⟨q, name, ht, -⟩ | ⟨name, ht, -⟩
    · exact hselect q name ht
    · exact hthis name ht

namespace Env

variable {env : Env} {t : Tree}

theorem isTypeToken_iff_stem :
    env.isTypeToken t ↔ ∃ callee arg, t.node = .typeApply callee [arg]
      ∧ callee.stem
          = some [some env.lib.classOf, some env.lib.predef, some env.lib.hostPackage] := by
  rw [isTypeToken_iff]
  constructor
  · rintro ⟨callee, predef, host, arg, name, predefName, hostName, ht, hcallee, hpredef, hhost, h₁,
      h₂, h₃⟩
    refine ⟨callee, arg, ht, Tree.stem_eq_cons_iff.2 (.inl ⟨predef, name, hcallee, h₁, ?_⟩)⟩
    refine Tree.stem_eq_cons_iff.2 (.inl ⟨host, predefName, hpredef, h₂, ?_⟩)
    exact Tree.stem_eq_cons_iff.2 (.inr ⟨hostName, hhost, h₃, rfl⟩)
  · rintro ⟨callee, arg, ht, h⟩
    rcases Tree.stem_eq_cons_iff.1 h with ⟨predef, name, hcallee, h₁, h⟩ | ⟨_, _, _, hnil⟩
    · rcases Tree.stem_eq_cons_iff.1 h with ⟨host, predefName, hpredef, h₂, h⟩ | ⟨_, _, _, hnil⟩
      · rcases Tree.stem_eq_cons_iff.1 h with ⟨q, _, _, _, hq⟩ | ⟨hostName, hhost, h₃, -⟩
        · exact absurd hq q.stem_ne_nil
        · exact ⟨callee, predef, host, arg, name, predefName, hostName, ht, hcallee, hpredef, hhost,
            h₁, h₂, h₃⟩
      · cases hnil
    · cases hnil

/-! ## Lemmas -/

/-- The shorthand that a node is. -/
def leftoverAt (env : Env) (t : Tree) : Option Leftover :=
  if env.isDynamicSelect t then some (.dynamicSelect t.span)
  else if env.isTypeToken t then some (.typeToken t.span)
  else none

theorem leftovers_eq (env : Env) (t : Tree) :
    env.leftovers t = (env.leftoverAt t).toList ++ t.children.flatMap env.leftovers := by
  show t.preorder.filterMap env.leftoverAt = _
  rw [Tree.preorder_eq, List.filterMap_cons, List.filterMap_flatMap]
  cases env.leftoverAt t <;> rfl

theorem leftoverAt_eq_none (hselect : ∀ qualifier name, t.node ≠ .select qualifier name)
    (happly : ∀ callee args, t.node ≠ .typeApply callee args) : env.leftoverAt t = none := by
  unfold leftoverAt
  rw [if_neg, if_neg]
  · rw [isTypeToken_iff_stem]
    rintro ⟨callee, arg, ht, -⟩
    exact happly callee [arg] ht
  · rw [isDynamicSelect_iff]
    rintro ⟨receiver, name, ht, -⟩
    exact hselect receiver name ht

end Env

namespace Pass

variable {env : Env} {options : Options} {t : Tree} {scope : Scope}

/-! ## Forwarders -/

/-- Nothing but forwarders waits for a body. -/
def Forwarding (s : State) : Prop := ∀ w ∈ s.waiting, IsForwarder w.2

theorem leftovers_of_isForwarder (h : IsForwarder t) : env.leftovers t = [] := by
  obtain ⟨jsName, kind, ht⟩ := h
  rw [Env.leftovers_eq, Env.leftoverAt_eq_none (by simp [ht]) (by simp [ht]), Tree.children, ht]
  rfl

theorem forwarding_of_ends_opening {s s' : State} (h : Ends (opening env options t scope) s () s')
    (hs : Forwarding s) : Forwarding s' := by
  unfold Ends at h
  rw [run_opening] at h
  obtain ⟨-, rfl⟩ := Prod.mk.inj h
  intro w hw
  rcases List.mem_append.1 hw with hw | hw
  · exact hs w hw
  · exact isForwarder_of_mem_waiting_opened hw

theorem forwarding_of_ends_leave {s s' : State} {out : Tree} (h : Ends (leave env t) s out s')
    (hs : Forwarding s) : Forwarding s' := by
  rcases ends_leave h with ⟨_, _, _, _, rfl⟩ | ⟨_, _, rfl⟩
  · exact fun w hw => hs w (List.mem_of_mem_filter hw)
  · exact hs

/-- Leaving a node neither takes shorthands away nor adds any. -/
theorem leftovers_of_ends_leave {s s' : State} {out : Tree} (h : Ends (leave env t) s out s')
    (hs : Forwarding s) : env.leftovers out = env.leftovers t := by
  rcases ends_leave h with ⟨parents, body, ht, rfl, -⟩ | ⟨-, rfl, -⟩
  · have hnone : ((s.waiting.filter (·.1 = t.symbol)).map (·.2)).flatMap env.leftovers = [] := by
      rw [List.flatMap_eq_nil_iff]
      intro f hf
      obtain ⟨w, hw, rfl⟩ := List.mem_map.1 hf
      exact leftovers_of_isForwarder (hs w (List.mem_of_mem_filter hw))
    rw [Env.leftovers_eq, Env.leftovers_eq env t, Env.leftoverAt_eq_none (by simp) (by simp),
      Env.leftoverAt_eq_none (by simp [ht]) (by simp [ht]), Tree.children, Tree.children, ht]
    simp only [Node.children, List.flatMap_append, hnone, List.append_nil]
  · rfl

/-! ## Rewritten trees -/

/-- What is known of the tree `out` that takes the place of a node. -/
structure Rewritten (env : Env) (options : Options) (t : Tree) (scope : Scope) (out : Tree) :
    Prop where
  ty_eq : out.ty = resultTy env options t scope
  leftovers_eq : env.leftovers out = (exposed env options false t scope).map .dynamicSelect
  /-- paths of selections are not made up -/
  stem_eq : ∀ rs, out.stem = some rs → t.stem = some rs
  /-- what typing makes of the tree -/
  typed : ∀ out', Typing.assign env out = .ok out' → out'.ty = typedTy env options t scope
    ∧ env.leftovers out' = (exposed env options true t scope).map .dynamicSelect

theorem leftovers_typedDynamicCall {receiver : Tree} {method : String} {symbol : SymbolId} {ty : Ty}
    {span : Span} (hmethod : Name.decode method ≠ shorthandName) :
    env.leftovers (typedDynamicCall receiver method symbol ty span) = env.leftovers receiver := by
  have hselect : ∀ select : Tree, select.node = .select receiver method →
      env.leftoverAt select = none := by
    intro select h
    unfold Env.leftoverAt
    rw [if_neg, if_neg]
    · rw [Env.isTypeToken_iff_stem, h]
      rintro ⟨_, _, hnode, -⟩
      cases hnode
    · rw [Env.isDynamicSelect_iff, h]
      rintro ⟨_, _, ⟨rfl, rfl⟩, hname, -⟩
      exact hmethod hname
  unfold typedDynamicCall
  rw [Env.leftovers_eq, Env.leftoverAt_eq_none (by simp) (by simp)]
  simp only [Tree.children, Node.children, List.flatMap_cons, List.flatMap_nil, Option.toList_none,
    List.nil_append, List.append_nil]
  rw [Env.leftovers_eq, hselect _ rfl, Env.leftovers_eq env { Tree.literal _ _ with ty := _ },
    Env.leftoverAt_eq_none (by simp [Tree.literal]) (by simp [Tree.literal])]
  simp [Tree.children, Node.children, Tree.literal]

/-! ## Kept nodes -/

section

variable {cs : List Tree} {u : Tree}

theorem stem_withChildren {rs : List SymbolRef}
    (hcs : List.Forall₂ (fun c c' => ∀ rs, c'.stem = some rs → c.stem = some rs) t.children cs)
    (h : (t.withChildren cs).stem = some rs) : t.stem = some rs := by
  obtain ⟨node, span, ty, symbol⟩ := t
  cases rs with
  | nil => exact absurd h (Tree.stem_ne_nil _)
  | cons r rs =>
    rw [Tree.stem_eq_cons_iff] at h ⊢
    cases node with
    | select part name =>
      obtain ⟨c, _, hc, hnil, rfl⟩ := List.forall₂_cons_left_iff.1 hcs
      cases hnil
      rcases h with ⟨_, _, ⟨rfl, rfl⟩, hsymbol, hstem⟩ | ⟨_, hnode, -⟩
      · exact .inl ⟨part, name, rfl, hsymbol, hc rs hstem⟩
      · cases hnode
    | this name => exact h
    | _ =>
      rcases h with ⟨_, _, hnode, -⟩ | ⟨_, hnode, -⟩
      all_goals cases hnode

theorem isTypeToken_of_withChildren
    (hcs : List.Forall₂ (fun c c' => ∀ rs, c'.stem = some rs → c.stem = some rs) t.children cs)
    (h : env.isTypeToken (t.withChildren cs)) : env.isTypeToken t := by
  obtain ⟨node, span, ty, symbol⟩ := t
  rw [Env.isTypeToken_iff_stem] at h ⊢
  obtain ⟨callee', arg', hnode, hstem⟩ := h
  cases node with
  | typeApply callee args =>
    obtain ⟨c, as, hc, has, rfl⟩ := List.forall₂_cons_left_iff.1 hcs
    obtain ⟨rfl, rfl⟩ : c = callee' ∧ as = [arg'] := by
      simpa [Tree.withChildren, Node.withChildren] using hnode
    obtain ⟨arg, _, _, hnil, rfl⟩ := List.forall₂_cons_right_iff.1 has
    cases hnil
    exact ⟨callee, arg, rfl, hc _ hstem⟩
  | _ => cases hnode

/-- A kept node is a shorthand afterwards if it is exposed. -/
theorem leftoverAt_of_kept (hkept : Kept env t scope) {typing : Bool}
    (hnode : u.node = t.node.withChildren cs) (hspan : u.span = t.span)
    (hcs : List.Forall₂ (fun c c' => c'.ty
      = finalTy env options (typesParts env typing t scope) c (inner env t scope)) t.children cs)
    (htoken : ¬ env.isTypeToken u) :
    env.leftoverAt u
      = if isExposed env options typing t scope then some (.dynamicSelect t.span) else none := by
  have hselect : env.isDynamicSelect u = isExposed env options typing t scope := by
    have hnot : env.isDynamicSelect t = false := by
      rw [Bool.eq_false_iff]
      intro h
      cases hkept _ (Rule.find?_eq_dynamicSelect_iff.2 h)
    unfold isExposed
    rw [hnot]
    unfold Env.isDynamicSelect
    rw [hnode]
    cases ht : t.node with
    | select part name =>
      rw [Tree.children, ht] at hcs
      obtain ⟨c, _, hc, hnil, rfl⟩ := List.forall₂_cons_left_iff.1 hcs
      cases hnil
      simp [Node.withChildren, hc]
    | _ => rfl
  unfold Env.leftoverAt
  rw [hselect, if_neg htoken, hspan]

theorem leftovers_of_kept (hkept : Kept env t scope) {typing : Bool}
    (hnode : u.node = t.node.withChildren cs) (hspan : u.span = t.span)
    (hcs : List.Forall₂ (fun c c' =>
      c'.ty = finalTy env options (typesParts env typing t scope) c (inner env t scope)
      ∧ env.leftovers c' = (exposed env options (typesParts env typing t scope) c
          (inner env t scope)).map .dynamicSelect) t.children cs)
    (htoken : ¬ env.isTypeToken u) :
    env.leftovers u = (exposed env options typing t scope).map .dynamicSelect := by
  have hchildren : u.children = cs := by
    rw [Tree.children, hnode]
    exact Node.children_withChildren hcs.length_eq.symm
  rw [Env.leftovers_eq, exposed_eq, parts_of_kept hkept, hchildren,
    leftoverAt_of_kept hkept hnode hspan (hcs.imp fun _ _ h => h.1) htoken, List.map_append,
    List.map_flatMap]
  congr 1
  · cases isExposed env options typing t scope <;> rfl
  · exact (flatMap_congr_of_forall₂ hcs fun c _ c' hc => hc.2.symm).symm

end

/-! ## Every node -/

section

variable {out : Tree} (hty : out.ty = resultTy env options t scope)
  (hleft : env.leftovers out = (exposed env options false t scope).map .dynamicSelect)

include hty hleft

/-- Typing leaves a tree alone that has a type. -/
theorem typed_of_typed (hne : out.ty ≠ .noType)
    (hsame : exposed env options true t scope = exposed env options false t scope) (out' : Tree)
    (h : Typing.assign env out = .ok out') : out'.ty = typedTy env options t scope
      ∧ env.leftovers out' = (exposed env options true t scope).map .dynamicSelect := by
  obtain rfl := (Typing.assign_eq_ok_iff_of_typed hne).1 h
  rw [typedTy_of_typed (hty ▸ hne), hsame]
  exact ⟨hty, hleft⟩

end

theorem rewritten_of_kept (hkept : Kept env t scope) {cs : List Tree}
    (hcs : List.Forall₂ (fun c c' => Rewritten env options c (inner env t scope) c')
      t.children cs) :
    Rewritten env options t scope (t.withChildren cs) := by
  have hlength := hcs.length_eq.symm
  have hstem : ∀ rs, (t.withChildren cs).stem = some rs → t.stem = some rs := fun rs =>
    stem_withChildren (hcs.imp fun _ _ h => h.stem_eq)
  have htoken : ¬ env.isTypeToken (t.withChildren cs) := fun h =>
    nomatch hkept _ (Rule.find?_eq_typeToken_iff.2 (isTypeToken_of_withChildren
      (hcs.imp fun _ _ h => h.stem_eq) h))
  have hty : (t.withChildren cs).ty = resultTy env options t scope := (resultTy_of_kept hkept).symm
  have hleft : env.leftovers (t.withChildren cs)
      = (exposed env options false t scope).map .dynamicSelect := by
    refine leftovers_of_kept hkept rfl rfl (hcs.imp fun _ _ h => ?_) htoken
    rw [typesParts_of_kept hkept]
    exact ⟨h.ty_eq, h.leftovers_eq⟩
  refine ⟨hty, hleft, hstem, fun out' h => ?_⟩
  by_cases hne : t.ty = .noType
  · -- each child is typed, and then the node by the types of its children
    have hparts : typesParts env true t scope = true := by
      rw [typesParts_of_kept hkept, hne]
      rfl
    obtain ⟨cs', symbol, ty, hcs', hr, rfl⟩ :=
      (Typing.assign_eq_ok_iff_of_untyped (t := t.withChildren cs) hne).1 h
    rw [Tree.children_withChildren hlength] at hcs'
    rw [Tree.withChildren_withChildren hlength] at hr
    have htyped := forall₂_trans (fun c c' c'' (hc : Rewritten env options c (inner env t scope) c')
      (hc' : Typing.assign env c' = .ok c'') => hc.typed c'' hc') hcs hcs'
    constructor
    · have htys : (t.children.map fun c =>
            { Tree.placeholder {} with ty := typedTy env options c (inner env t scope) }).map (·.ty)
          = cs'.map (·.ty) := by
        rw [List.map_map, ← List.forall₂_eq_eq_eq, List.forall₂_map_left_iff,
          List.forall₂_map_right_iff]
        exact htyped.imp fun _ _ h => h.1.symm
      have hr' := Typing.resolve_congr htys (htyped.length_eq.symm) hr
      rw [typedTy_of_untyped ((resultTy_of_kept hkept).trans hne), hr']
    · refine leftovers_of_kept hkept (Node.withChildren_withChildren hlength cs') rfl
        (htyped.imp fun _ _ h => ?_) ?_
      · rw [hparts]
        exact h
      · rw [isTypeToken_eq_false_of_isTypable]
        · simp
        · have htypable := Typing.isTypable_of_resolve_eq_ok hr
          simpa [Tree.withChildren] using htypable
  · refine typed_of_typed hty hleft hne (exposed_of_typed hne) out' h

theorem rewritten_of_typeToken (hfind : Rule.find? env t scope = some .typeToken) {out : Tree}
    (hresult : tokenResult env options t = .ok out) : Rewritten env options t scope out := by
  obtain ⟨callee, _, _, arg, _, _, _, ht, -⟩ :=
    Env.isTypeToken_iff.1 (Rule.find?_eq_typeToken_iff.1 hfind)
  have hexposed : ∀ typing, exposed env options typing t scope = [] := by
    intro typing
    rw [exposed_eq, parts_of_typeToken hfind, isExposed_of_not_select (by simp [ht])]
    rfl
  rcases (tokenResult_eq_ok_iff ht).1 hresult with ⟨hreport, rfl⟩ | ⟨hreport, -, rfl⟩
  · refine ⟨?_, ?_, by simp [Tree.placeholder, Tree.stem], fun out' h => ?_⟩
    · unfold resultTy
      rw [hfind]
      exact (if_neg hreport).symm
    · rw [hexposed, Env.leftovers_eq, Env.leftoverAt_eq_none (by simp [Tree.placeholder])
        (by simp [Tree.placeholder])]
      rfl
    · cases Typing.isTypable_of_assign_eq_ok h rfl
  · have hty : (classLiteral env t arg).ty = resultTy env options t scope := by
      unfold resultTy
      rw [hfind]
      exact (if_pos hreport).symm
    have hleft : env.leftovers (classLiteral env t arg)
        = (exposed env options false t scope).map .dynamicSelect := by
      rw [hexposed, Env.leftovers_eq, Env.leftoverAt_eq_none (by simp [classLiteral])
        (by simp [classLiteral])]
      rfl
    refine ⟨hty, hleft, by simp [classLiteral, Tree.stem], ?_⟩
    exact typed_of_typed hty hleft (by simp [classLiteral, Env.tokenTy, Library.classTy])
      (by rw [hexposed, hexposed])

theorem rewritten_of_enumValueDef (hfind : Rule.find? env t scope = some .enumValueDef)
    (h : env.isUnnamedValueDef t) {cs : List Tree}
    (hcs : List.Forall₂ (fun c c' => Rewritten env options c (inner env t scope) c')
      (named env t).children cs) :
    Rewritten env options t scope ((named env t).withChildren cs) := by
  obtain ⟨rhs, hnamed⟩ := named_of_isUnnamedValueDef h
  obtain ⟨rhs₀, _, _, ht, -⟩ := Env.isUnnamedValueDef_iff.1 h
  have hnode : ((named env t).withChildren cs).node = .valDef (cs.headD default) := by
    rw [hnamed]
    rfl
  have hty : ((named env t).withChildren cs).ty = resultTy env options t scope := by
    unfold resultTy
    rw [hfind, hnamed]
    rfl
  have hflag : typesParts env false t scope = false := by
    unfold typesParts
    rw [hfind]
    rfl
  have hleft : env.leftovers ((named env t).withChildren cs)
      = (exposed env options false t scope).map .dynamicSelect := by
    rw [Env.leftovers_eq, exposed_eq, parts_of_enumValueDef hfind, hflag,
      Tree.children_withChildren hcs.length_eq.symm, isExposed_of_not_select (by simp [ht]),
      Env.leftoverAt_eq_none (by simp [hnode]) (by simp [hnode]), List.map_append, List.map_flatMap]
    congr 1
    exact (flatMap_congr_of_forall₂ hcs fun c _ c' hc => hc.leftovers_eq.symm).symm
  refine ⟨hty, hleft, fun rs hrs => ?_, fun out' hout => ?_⟩
  · rw [Tree.stem_eq_none (by simp [hnode]) (by simp [hnode])] at hrs
    cases hrs
  · by_cases hne : t.ty = .noType
    · have htypable := Typing.isTypable_of_assign_eq_ok hout (by rw [hnamed]; exact hne)
      rw [hnode] at htypable
      cases htypable
    · exact typed_of_typed hty hleft (by rw [hnamed]; exact hne) (exposed_of_typed hne) out' hout

/-- The call that takes the place of a dynamic shorthand has what its parts have. -/
theorem rewritten_of_dynamic (hfind : Rule.find? env t scope = some .dynamicApply
      ∨ Rule.find? env t scope = some .dynamicSelect) {out callee : Tree} {args : List Tree}
    (hnode : out.node = .apply callee args) (hty : out.ty = env.dynamicTy)
    (hleft : env.leftovers out
      = ((parts env t scope).flatMap
          (exposed env options true · (inner env t scope))).map .dynamicSelect) :
    Rewritten env options t scope out := by
  have hflag : ∀ typing, typesParts env typing t scope = true := by
    intro typing
    unfold typesParts
    rcases hfind with h | h
    all_goals rw [h]
  have hnot : ∀ typing, isExposed env options typing t scope = false := by
    intro typing
    rcases hfind with h | h
    · obtain ⟨callee, args, ht, -⟩ := Env.isDynamicApply_iff.1 (Rule.applies_of_find?_eq_some h)
      exact isExposed_of_not_select (by simp [ht]) typing
    · exact isExposed_of_dynamicSelect h typing
  have hresult : out.ty = resultTy env options t scope := by
    rw [hty]
    unfold resultTy
    rcases hfind with h | h
    all_goals rw [h]
  have hleft : env.leftovers out = (exposed env options false t scope).map .dynamicSelect := by
    rw [exposed_eq, hflag, hnot]
    exact hleft
  refine ⟨hresult, hleft, fun rs h => ?_, ?_⟩
  · rw [Tree.stem_eq_none (by simp [hnode]) (by simp [hnode])] at h
    cases h
  · exact typed_of_typed hresult hleft (by simp [hty, Env.dynamicTy, Library.classTy])
      (exposed_congr (by rw [hflag, hflag]))

theorem rewritten_of_dynamicApply (henv : env.Installed)
    (hfind : Rule.find? env t scope = some .dynamicApply) {callee receiver r out : Tree}
    {args as : List Tree} {name : String} (ht : t.node = .apply callee args)
    (hcallee : callee.node = .select receiver name)
    (hr : Rewritten env options receiver (inner env t scope) r)
    (has : List.Forall₂ (fun c c' => Rewritten env options c (inner env t scope) c') args as)
    (hout : applyDynamic env t callee r as = .ok out) : Rewritten env options t scope out := by
  obtain ⟨r', as', hr', has', -, rfl⟩ := (applyDynamic_eq_ok_iff henv).1 hout
  refine rewritten_of_dynamic (.inl hfind) rfl rfl ?_
  have htyped := forall₂_trans (fun c c' c'' (hc : Rewritten env options c (inner env t scope) c')
    (hc' : Typing.assign env c' = .ok c'') => hc.typed c'' hc') has has'
  rw [parts_of_dynamicApply hfind ht hcallee, List.flatMap_cons, List.map_append, List.map_flatMap,
    Env.leftovers_eq, Env.leftoverAt_eq_none (by simp) (by simp), Tree.children]
  simp only [Node.children, Option.toList_none, List.nil_append, List.flatMap_cons]
  rw [leftovers_typedDynamicCall (by decide +kernel), (hr.typed r' hr').2]
  congr 1
  exact (flatMap_congr_of_forall₂ htyped fun c _ c' hc => hc.2.symm).symm

theorem rewritten_of_dynamicSelect (henv : env.Installed)
    (hfind : Rule.find? env t scope = some .dynamicSelect) {receiver r out : Tree} {name : String}
    (ht : t.node = .select receiver name)
    (hr : Rewritten env options receiver (inner env t scope) r)
    (hout : selectDynamic env t r = .ok out) : Rewritten env options t scope out := by
  obtain ⟨r', hr', -, rfl⟩ := (selectDynamic_eq_ok_iff henv).1 hout
  refine rewritten_of_dynamic (.inr hfind) rfl rfl ?_
  rw [parts_of_dynamicSelect hfind ht, List.flatMap_cons, List.flatMap_nil, List.append_nil,
    leftovers_typedDynamicCall (by decide +kernel)]
  exact (hr.typed r' hr').2

theorem Rewritten.leave {t' out : Tree} {s s' : State} (h : Rewritten env options t scope t')
    (hleave : Ends (leave env t') s out s') (hs : Forwarding s) :
    Rewritten env options t scope out := by
  have hleft := (leftovers_of_ends_leave hleave hs).trans h.leftovers_eq
  rcases ends_leave hleave with ⟨parents, body, ht', heq, -⟩ | ⟨-, rfl, -⟩
  · have hnode : ∃ parents body, out.node = .template parents body := ⟨_, _, congrArg Tree.node heq⟩
    have hty : out.ty = t'.ty := by rw [heq]
    obtain ⟨parents, body, hnode⟩ := hnode
    refine ⟨hty.trans h.ty_eq, hleft, fun rs hrs => ?_, fun out' hout => ?_⟩
    · rw [Tree.stem_eq_none (by simp [hnode]) (by simp [hnode])] at hrs
      cases hrs
    · by_cases hne : out.ty = .noType
      · have htypable := Typing.isTypable_of_assign_eq_ok hout hne
        rw [hnode] at htypable
        cases htypable
      · -- typing leaves the tree alone, as it did before the node was left
        obtain ⟨hty', hsame⟩ :=
          h.typed t' ((Typing.assign_eq_ok_iff_of_typed (hty ▸ hne)).2 rfl)
        obtain rfl := (Typing.assign_eq_ok_iff_of_typed hne).1 hout
        exact ⟨hty.trans hty', (leftovers_of_ends_leave hleave hs).trans hsame⟩
  · exact h

/-- **What the pass makes of a tree.** -/
theorem rewritten_of_ends (henv : env.Installed) {s s' : State} {out : Tree}
    (h : Ends (transform env options t scope) s out s') (hs : Forwarding s) :
    Rewritten env options t scope out ∧ Forwarding s' := by
  induction t, scope using parts_induction env generalizing s s' out with
  | h t scope ih =>
    obtain ⟨s₁, cs, s₂, t', hopen, hparts, hrebuild, hleave⟩ := ends_transform_iff.1 h
    obtain ⟨hcs, hs₂⟩ := hparts.forall₂_of_preserved (P := Forwarding)
      (fun c hc s c' s' hs h => ih c hc h hs) (forwarding_of_ends_opening hopen hs)
    refine ⟨Rewritten.leave ?_ hleave hs₂, forwarding_of_ends_leave hleave hs₂⟩
    rcases stages_cases env t scope with
      hkept | ⟨hfind, -⟩ | ⟨hfind, hvalue⟩ | ⟨hfind, callee, args, receiver, name, ht, hcallee⟩
        | ⟨hfind, receiver, name, ht⟩
    · rw [rebuild_of_kept hkept] at hrebuild
      cases hrebuild
      rw [parts_of_kept hkept] at hcs
      exact rewritten_of_kept hkept hcs
    · rw [rebuild_of_typeToken hfind] at hrebuild
      exact rewritten_of_typeToken hfind hrebuild
    · rw [rebuild_of_enumValueDef hfind] at hrebuild
      cases hrebuild
      rw [parts_of_enumValueDef hfind] at hcs
      exact rewritten_of_enumValueDef hfind hvalue hcs
    · rw [parts_of_dynamicApply hfind ht hcallee] at hcs
      obtain ⟨r, as, hr, has, rfl⟩ := List.forall₂_cons_left_iff.1 hcs
      rw [rebuild_of_dynamicApply hfind ht] at hrebuild
      exact rewritten_of_dynamicApply henv hfind ht hcallee hr has hrebuild
    · rw [parts_of_dynamicSelect hfind ht] at hcs
      obtain ⟨r, _, hr, hnil, rfl⟩ := List.forall₂_cons_left_iff.1 hcs
      cases hnil
      rw [rebuild_of_dynamicSelect hfind] at hrebuild
      exact rewritten_of_dynamicSelect henv hfind ht hr hrebuild

/-! ## Top theorems -/

/-- Each shorthand that is visited has the type of what it becomes, and what a shorthand is applied
to has types. -/
def Settled (env : Env) (t : Tree) (scope : Scope) : Prop :=
  ∀ v ∈ visits env t scope,
    (Rule.find? env v.1 v.2 = some .dynamicApply ∨ Rule.find? env v.1 v.2 = some .dynamicSelect →
      env.table.typeSymbol v.1.ty = some env.lib.jsDynamic)
    ∧ (Rule.find? env v.1 v.2 = some .dynamicApply → ∀ c ∈ parts env v.1 v.2, c.ty ≠ .noType)

theorem Settled.part (h : Settled env t scope) {c : Tree} (hc : c ∈ parts env t scope) :
    Settled env c (inner env t scope) :=
  fun v hv => h v (visits_subset_of_mem_parts hc hv)

/-- A value that was not dynamic does not become so. -/
theorem typeSymbol_resultTy (henv : env.Installed) (h : Settled env t scope)
    (hty : env.table.typeSymbol (resultTy env options t scope) = some env.lib.jsDynamic) :
    env.table.typeSymbol t.ty = some env.lib.jsDynamic := by
  have hself := (h _ (mem_visits_self env t scope)).1
  unfold resultTy at hty
  split at hty
  next hfind => exact hself (.inl hfind)
  next hfind => exact hself (.inr hfind)
  next =>
    split at hty
    next =>
      have hclass : some env.lib.classClass = some env.lib.jsDynamic := hty
      rw [henv.lib_eq] at hclass
      exact absurd hclass (by decide)
    next => cases hty
  next => exact hty

theorem exposed_eq_nil (henv : env.Installed) (h : Settled env t scope) :
    exposed env options false t scope = [] := by
  induction t, scope using parts_induction env with
  | h t scope ih =>
    have hself : isExposed env options false t scope = false := by
      rw [Bool.eq_false_iff]
      intro hexposed
      unfold isExposed at hexposed
      split at hexposed
      next part name ht =>
        simp only [Bool.and_eq_true, Bool.not_eq_true', decide_eq_true_eq] at hexposed
        obtain ⟨⟨hnot, hname⟩, hty⟩ := hexposed
        have hkept : Kept env t scope := by
          intro rule hrule
          have hmem := Rule.mem_candidates_of_find?_eq_some hrule
          rw [ht] at hmem
          rw [List.mem_singleton.1 hmem, Rule.find?_eq_dynamicSelect_iff, hnot] at hrule
          cases hrule
        have hpart : part ∈ parts env t scope := by
          rw [parts_of_kept hkept, Tree.children, ht]
          exact .head _
        rw [typesParts_of_kept hkept] at hty
        have := Env.isDynamicSelect_iff.2
          ⟨part, name, ht, hname, typeSymbol_resultTy henv (h.part hpart) hty⟩
        rw [hnot] at this
        cases this
      next => cases hexposed
    rw [exposed_eq, hself, if_neg (by simp), List.nil_append, List.flatMap_eq_nil_iff]
    intro c hc
    cases hflag : typesParts env false t scope with
    | false => exact ih c hc (h.part hc)
    | true =>
      -- only the parts of shorthands are typed, and these have types
      have hne : c.ty ≠ .noType := by
        unfold typesParts at hflag
        split at hflag
        next hfind => exact (h _ (mem_visits_self env t scope)).2 hfind c hc
        next hfind =>
          obtain ⟨receiver, name, ht, -, hty⟩ :=
            Env.isDynamicSelect_iff.1 (Rule.find?_eq_dynamicSelect_iff.1 hfind)
          rw [parts_of_dynamicSelect hfind ht, List.mem_singleton] at hc
          rw [hc]
          rintro hnone
          rw [hnone] at hty
          cases hty
        next => cases hflag
      rw [exposed_of_typed hne]
      exact ih c hc (h.part hc)

/-- **What is left over.**  A traversal that ends leaves exactly the selections of `x` that come to
light on the way, and no type token.  The unit is let through if there are none, which is so when
every shorthand has the type of what it becomes. -/
theorem leftovers_transform (ds : List Declaration) (options : Options) (a : Annotations)
    (t out : Tree) (s : State)
    (h : run (transform (.declaring ds) options t .root) { annotations := a } = (.ok out, s)) :
    (Env.declaring ds).leftovers out
        = (exposed (.declaring ds) options false t .root).map .dynamicSelect
      ∧ ((∃ prepared, (prepare (.declaring ds) options t a).1 = .ok prepared)
          ↔ exposed (.declaring ds) options false t .root = [])
      ∧ (Settled (.declaring ds) t .root → exposed (.declaring ds) options false t .root = []) := by
  have henv := Env.installed_declaring ds
  obtain ⟨hout, -⟩ := rewritten_of_ends henv h (fun w hw => nomatch hw)
  refine ⟨hout.leftovers_eq, ?_, exposed_eq_nil henv⟩
  have hleft := hout.leftovers_eq
  rw [prepare_eq, h]
  cases hexposed : exposed (.declaring ds) options false t .root with
  | nil =>
    rw [hexposed] at hleft
    simp [bind, Except.bind, hleft]
  | cons span spans =>
    rw [hexposed] at hleft
    simp [bind, Except.bind, hleft]

/-- A package with a dynamic value `d` in it. -/
def dynamicValue : List Declaration :=
  [⟨some SymbolTable.root, "app", .package⟩,
   ⟨some 29, "d", .value [] (Library.classTy Library.fresh.1.jsDynamic)⟩]

/-- The selection `d.x.x`, where `d.x` has the type of any value. -/
def selectedTwice : Tree :=
  let d : Tree :=
    { node := .ident "d", span := ⟨0, 1⟩, symbol := some 30
      ty := Library.classTy Library.fresh.1.jsDynamic }
  let first : Tree :=
    { node := .select d "x", span := ⟨0, 3⟩, ty := Library.classTy Library.fresh.1.anyClass }
  { node := .select first "x", span := ⟨0, 5⟩ }

/-- The outer selection is no shorthand in the source, but the inner one becomes dynamic. -/
theorem leftovers_selectedTwice :
    ∃ out s, run (transform (.declaring dynamicValue) {} selectedTwice .root)
          { annotations := .blank 31 } = (.ok out, s)
      ∧ (Env.declaring dynamicValue).leftovers out = [.dynamicSelect ⟨0, 5⟩]
      ∧ ¬ ∃ prepared, (prepare (.declaring dynamicValue) {} selectedTwice (.blank 31)).1
          = .ok prepared := by
  have hok : (run (transform (.declaring dynamicValue) {} selectedTwice .root)
      { annotations := .blank 31 }).1.isOk = true := by
    decide +kernel
  have hexposed : exposed (.declaring dynamicValue) {} false selectedTwice .root = [⟨0, 5⟩] := by
    decide +kernel
  cases hrun : run (transform (.declaring dynamicValue) {} selectedTwice .root)
      { annotations := .blank 31 } with
  | mk result s =>
    rw [hrun] at hok
    cases result with
    | error e => cases hok
    | ok out =>
      obtain ⟨hleft, hprepare, -⟩ := leftovers_transform dynamicValue {} (.blank 31) selectedTwice
        out s hrun
      refine ⟨out, s, rfl, ?_, ?_⟩
      · rw [hleft, hexposed]
        rfl
      · rw [hprepare, hexposed]
        simp

end Pass

end Interop
