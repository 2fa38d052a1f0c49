import Interop.Proofs.Bodies
import Interop.Proofs.Completion

/-!
# Factory calls with their names

A factory call that gets its name is typed and then visited.  Typing goes into what the factory is
selected from and into the arguments, and so does the visit, so that what comes out is the call with
the name, over what these come to:

    r.Value(a, …)   ↦   r'.Value(a', …, "v")

It is no dynamic application, since no dynamic value fits where an enumeration value is needed.
-/

namespace Interop.Pass

/-! ## Algorithm -/

/-- The value definition, visited in the state `s`, comes to `u`, which calls the factory with the
name of the value.  What the factory is selected from and the arguments are typed, and then they are
visited in turn from that state on. -/
def GetsName (env : Env) (options : Options) (t : Tree) (scope : Scope) (s : State) (u : Tree) :
    Prop :=
  ∃ rhs callee args qs as qs' as' s₁ s₂, t.node = .valDef rhs ∧ rhs.node = .apply callee args
    ∧ List.Forall₂ (fun q q' => Typing.assign env q = .ok q') callee.children qs
    ∧ List.Forall₂ (fun a a' => Typing.assign env a = .ok a') args as
    ∧ Ends (qs.mapM fun q => transform env options q scope) s qs' s₁
    ∧ Ends (as.mapM fun a => transform env options a scope) s₁ as' s₂
    ∧ u = { t with
        node := .valDef (typedNameCall env (callee.withChildren qs') as' rhs.span
          (Name.decode (Name.getter (env.table.name t.symbol)))) }

/-! ## Lemmas -/

variable {env : Env} {options : Options} {t u : Tree} {scope : Scope} {s s' : State}
  {callee call : Tree} {args : List Tree} {span : Span} {name : String}

/-- What is kept and is no class, object or body comes to itself over what its children come to, in
the same scope. -/
theorem exists_of_becomes_of_kept (hkept : Kept env t scope) (himpl : ¬ t.node.isImplDef)
    (hbody : ¬ t.node.isTemplate) (h : Becomes env options (t, scope) u) :
    ∃ cs, List.Forall₂ (fun c => Becomes env options (c, scope)) t.children cs
      ∧ u = t.withChildren cs := by
  obtain ⟨s, s', h⟩ := h
  obtain ⟨_, cs, _, t', -, hparts, hrebuild, hleave⟩ := ends_transform_iff.1 h
  rw [parts_of_kept hkept, inner_of_not_isImplDef himpl] at hparts
  rw [rebuild_of_kept hkept] at hrebuild
  cases hrebuild
  obtain ⟨hcs, -⟩ := hparts.forall₂_of_preserved (P := fun _ => True)
    (Q := fun c => Becomes env options (c, scope))
    (fun c _ s c' s' _ h => ⟨⟨s, s', h⟩, trivial⟩) trivial
  refine ⟨cs, hcs, ?_⟩
  rcases ends_leave hleave with ⟨parents, body, hnode, -⟩ | ⟨-, rfl, -⟩
  · have htemplate : (t.withChildren cs).node.isTemplate = t.node.isTemplate :=
      Node.isTemplate_withChildren _ _
    rw [hnode] at htemplate
    exact absurd htemplate.symm hbody
  · rfl

theorem exists_of_becomes (hkept : Kept env t scope) (ht : t.node.isTypable)
    (h : Becomes env options (t, scope) u) :
    ∃ cs, List.Forall₂ (fun c => Becomes env options (c, scope)) t.children cs
      ∧ u = t.withChildren cs :=
  exists_of_becomes_of_kept hkept (by simp [isImplDef_of_isTypable t ht])
    (by simp [isTemplate_of_isTypable t ht]) h

/-- What a factory is selected from does not change that it is a reference. -/
@[simp] theorem isReference_withChildren (callee : Tree) (cs : List Tree) :
    (callee.withChildren cs).node.isReference = callee.node.isReference := by
  unfold Tree.withChildren
  cases callee.node <;> rfl

/-- **What typing makes of a call that gets its name.** -/
theorem exists_of_assign_nameCall (henv : env.Installed)
    (hcallee : callee.node.isReference)
    (h : Typing.assign env (env.nameCall callee args span name) = .ok call) :
    ∃ qs as, List.Forall₂ (fun q q' => Typing.assign env q = .ok q') callee.children qs
      ∧ List.Forall₂ (fun a a' => Typing.assign env a = .ok a') args as
      ∧ call = typedNameCall env (callee.withChildren qs) as span name := by
  unfold Env.nameCall at h
  obtain ⟨f, as', ty, hf, has', hty, rfl⟩ := Typing.assign_apply_eq_ok_iff.1 h
  obtain ⟨qs, hqs, rfl⟩ := (assign_factory_eq_ok_iff henv hcallee).1 hf
  obtain ⟨as, ls, has, hls, rfl⟩ := exists_of_forall₂_append has'
  obtain ⟨l, _, hl, hnil, rfl⟩ := List.forall₂_cons_left_iff.1 hls
  cases hnil
  rw [Typing.assign_literal] at hl
  cases hl
  obtain ⟨_, _, hmethod, -, -⟩ := Typing.applyTy_eq_ok_iff.1 hty
  cases hmethod
  exact ⟨qs, as, hqs, has, rfl⟩

/-- An expression that no rule is for is visited child by child, and nothing else is done. -/
theorem exists_chain_of_find?_eq_none (hnone : Rule.find? env t scope = none)
    (ht : t.node.isTypable) (h : Ends (transform env options t scope) s u s') :
    ∃ cs, Chain (fun c => Ends (transform env options c scope)) t.children s cs s'
      ∧ u = t.withChildren cs := by
  have hkept : Kept env t scope := by
    intro rule hfind
    rw [hnone] at hfind
    cases hfind
  obtain ⟨_, cs, _, t', hopen, hparts, hrebuild, hleave⟩ := ends_transform_iff.1 h
  have hquiet : opening env options t scope = pure () := by
    unfold opening
    rw [hnone]
  rw [hquiet, ends_pure_iff] at hopen
  obtain ⟨-, rfl⟩ := hopen
  rw [parts_of_kept hkept, inner_of_not_isImplDef (by simp [isImplDef_of_isTypable t ht])] at hparts
  rw [rebuild_of_kept hkept] at hrebuild
  cases hrebuild
  have htypable : (t.withChildren cs).node.isTypable := by
    rw [← ht]
    exact Node.isTypable_withChildren _ _
  have hclosing : ∀ a, closingReport env a (t.withChildren cs) = [] := by
    intro a
    rw [closingReport, if_neg]
    cases hnode : (t.withChildren cs).node <;>
      simp [hnode, Node.isTypable, Node.isMemberDef] at htypable ⊢
  rcases ends_leave hleave with ⟨parents, body, hnode, -⟩ | ⟨-, rfl, hs'⟩
  · rw [hnode] at htypable
    cases htypable
  · rw [hclosing, List.append_nil] at hs'
    rw [hs']
    exact ⟨cs, hparts, rfl⟩

/-- A literal comes to itself. -/
theorem of_ends_literal {value : Constant} (ht : t.node = .literal value)
    (h : Ends (transform env options t scope) s u s') : u = t ∧ s' = s := by
  have hnone : Rule.find? env t scope = none := by
    cases hfind : Rule.find? env t scope with
    | none => rfl
    | some rule =>
      have hmem := Rule.mem_candidates_of_find?_eq_some hfind
      rw [ht] at hmem
      cases hmem
  obtain ⟨cs, hcs, rfl⟩ := exists_chain_of_find?_eq_none hnone (by rw [ht]; rfl) h
  rw [Tree.children, ht] at hcs
  cases hcs
  obtain ⟨node, _, _, _⟩ := t
  obtain rfl : node = _ := ht
  exact ⟨rfl, rfl⟩

/-- No rule is for a call that has its name, if it is visited to the end. -/
theorem find?_typedNameCall_eq_none (henv : env.Installed) (hcallee : callee.node.isReference)
    (h : Ends (transform env options (typedNameCall env callee args span name) scope) s u s') :
    Rule.find? env (typedNameCall env callee args span name) scope = none := by
  cases hfind : Rule.find? env (typedNameCall env callee args span name) scope with
  | none => rfl
  | some rule =>
    have hmem := Rule.mem_candidates_of_find?_eq_some hfind
    have happlies := Rule.applies_of_find?_eq_some hfind
    cases rule with
    | dynamicApply => exact absurd (conforms_of_ends henv h (.inl hfind)) henv.not_conforms_enumTy
    | unnamedCall =>
      simp [Rule.applies, isUnnamedCall_typedNameCall henv args span name hcallee] at happlies
    | nullNamedCall => simp [Rule.applies, isNullNamedCall_typedNameCall] at happlies
    | _ => simp [typedNameCall, Rule.candidates] at hmem

/-- No rule is for the factory of a call that no rule is for. -/
theorem find?_factory_eq_none (henv : env.Installed) (hcallee : callee.node.isReference)
    (hnone : Rule.find? env (typedNameCall env callee args span name) scope = none) {f : Tree}
    (hf : f.node = callee.node) : Rule.find? env f scope = none := by
  cases hfind : Rule.find? env f scope with
  | none => rfl
  | some rule =>
    have hmem := Rule.mem_candidates_of_find?_eq_some hfind
    rw [hf] at hmem
    rcases Node.isReference_iff.1 hcallee with ⟨receiver, x, hnode⟩ | ⟨x, hnode⟩
    · rw [hnode, Rule.candidates, List.mem_singleton] at hmem
      subst hmem
      rw [Rule.find?_eq_dynamicSelect_iff, Env.isDynamicSelect_congr hf] at hfind
      rw [find?_typedNameCall henv hfind] at hnone
      cases hnone
    · rw [hnode] at hmem
      cases hmem

/-- **What a call with its name comes to.**  What the factory is selected from is visited, and then
the arguments. -/
theorem exists_of_ends_typedNameCall (henv : env.Installed) (hcallee : callee.node.isReference)
    (h : Ends (transform env options (typedNameCall env callee args span name) scope) s u s') :
    ∃ qs s₁ as, Chain (fun c => Ends (transform env options c scope)) callee.children s qs s₁
      ∧ Chain (fun c => Ends (transform env options c scope)) args s₁ as s'
      ∧ u = typedNameCall env (callee.withChildren qs) as span name := by
  have hnone := find?_typedNameCall_eq_none henv hcallee h
  obtain ⟨_, hcs, rfl⟩ := exists_chain_of_find?_eq_none hnone rfl h
  cases hcs with
  | cons hf hcs =>
    obtain ⟨as, s₂, _, has, hliteral, rfl⟩ := hcs.exists_of_append
    have hfnone := find?_factory_eq_none henv hcallee hnone (f := { callee with
      ty := .method (factoryParams env callee.symbol ++ [.str]) env.enumTy
      symbol := some (env.namedFactory callee.symbol) }) rfl
    obtain ⟨qs, hqs, rfl⟩ :=
      exists_chain_of_find?_eq_none hfnone (isTypable_of_isReference hcallee) hf
    cases hliteral with
    | cons hl hnil =>
      cases hnil
      obtain ⟨rfl, rfl⟩ := of_ends_literal rfl hl
      exact ⟨qs, _, as, hqs, has, rfl⟩

/-! ## Value definitions -/

/-- What the definition of a value is when it has its name. -/
theorem exists_of_nameValueDef (henv : env.Installed) (hvalue : env.isUnnamedValueDef t)
    (h : nameValueDef env t = .ok u) :
    ∃ rhs callee args qs as, t.node = .valDef rhs ∧ rhs.node = .apply callee args
      ∧ callee.node.isReference
      ∧ List.Forall₂ (fun q q' => Typing.assign env q = .ok q') callee.children qs
      ∧ List.Forall₂ (fun a a' => Typing.assign env a = .ok a') args as
      ∧ u = { t with
          node := .valDef
            (typedNameCall env (callee.withChildren qs) as rhs.span (env.valueName t.symbol)) } := by
  obtain ⟨rhs, callee, args, ht, hrhs, hcallee, -⟩ := Env.isUnnamedValueDef_iff.1 hvalue
  obtain ⟨rhs', callee', args', call, ht', hrhs', -, hcall, rfl⟩ := exists_of_nameValueDef_eq_ok h
  obtain rfl : rhs' = rhs := by simpa [ht'] using ht
  obtain ⟨rfl, rfl⟩ : callee' = callee ∧ args' = args := by simpa [hrhs'] using hrhs
  obtain ⟨qs, as, hqs, has, rfl⟩ :=
    exists_of_assign_nameCall henv hcallee (retyped_eq_ok_iff.1 hcall).1
  exact ⟨_, _, _, qs, as, ht, hrhs, hcallee, hqs, has, rfl⟩

/-- A value that is named when it is visited can be named. -/
theorem exists_nameValueDef_of_ends
    (hfind : Rule.find? env t scope = some .enumValueDef)
    (h : Ends (transform env options t scope) s u s') : ∃ t', nameValueDef env t = .ok t' := by
  obtain ⟨_, _, _, _, hopen, -⟩ := ends_transform_iff.1 h
  unfold Ends opening at hopen
  rw [hfind] at hopen
  simp only [run_discard_liftExcept] at hopen
  cases hname : nameValueDef env t with
  | error e =>
    rw [hname] at hopen
    cases hopen
  | ok t' => exact ⟨t', rfl⟩

/-- **A value definition gets its name.** -/
theorem getsName_of_ends (henv : env.Installed)
    (hfind : Rule.find? env t scope = some .enumValueDef)
    (h : Ends (transform env options t scope) s u s') : GetsName env options t scope s u := by
  have hvalue : env.isUnnamedValueDef t := (Rule.find?_eq_enumValueDef_iff.1 hfind).2
  obtain ⟨t', hname⟩ := exists_nameValueDef_of_ends hfind h
  have hquiet : opening env options t scope = pure () := by
    unfold opening
    rw [hfind]
    simp only [hname]
    rfl
  obtain ⟨rhs, callee, args, qs, as, ht, hrhs, hcallee, hqs, has, rfl⟩ :=
    exists_of_nameValueDef henv hvalue hname
  have hnamed : named env t = { t with
      node := .valDef
        (typedNameCall env (callee.withChildren qs) as rhs.span (env.valueName t.symbol)) } := by
    unfold named
    rw [hname]
  obtain ⟨_, cs, _, t', hopen, hparts, hrebuild, hleave⟩ := ends_transform_iff.1 h
  rw [hquiet, ends_pure_iff] at hopen
  obtain ⟨-, rfl⟩ := hopen
  rw [inner_of_not_isImplDef (by rw [ht]; simp [Node.isImplDef]), parts_of_enumValueDef hfind,
    hnamed] at hparts
  rw [rebuild_of_enumValueDef hfind, hnamed] at hrebuild
  cases hrebuild
  cases hparts with
  | cons hcall hnil =>
    cases hnil
    obtain ⟨qs', s₁, as', hqs', has', rfl⟩ :=
      exists_of_ends_typedNameCall henv (by rwa [isReference_withChildren]) hcall
    rw [Tree.children_withChildren hqs.length_eq.symm] at hqs'
    rw [Tree.withChildren_withChildren hqs.length_eq.symm] at hleave
    refine ⟨rhs, callee, args, qs, as, qs', as', s₁, _, ht, hrhs, hqs, has,
      ends_mapM_iff.2 hqs', ends_mapM_iff.2 has', ?_⟩
    rcases ends_leave hleave with ⟨_, _, hnode, -⟩ | ⟨-, rfl, -⟩
    · cases hnode
    · rfl

end Interop.Pass
