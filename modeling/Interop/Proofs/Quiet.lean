import Interop.Proofs.Bodies
import Interop.Proofs.Completion

/-!
# Runs without exports

If no exports are asked for and nothing waits, this stays so: a run is then `Quiet`, and leaves
every node as it is.  So of the nodes that the pass neither builds nor takes out, a quiet run gives
back those of its input, in order, whatever happens below them.
-/

namespace Interop.Pass

/-- No exports are asked for, and nothing waits. -/
structure Quiet (env : Env) (s : State) : Prop where
  exports : ∀ r, env.exportsOf s.annotations r = []
  waiting : s.waiting = []

variable {env : Env} {options : Options} {a : Annotations} {t u : Tree} {scope : Scope}
  {s s' s₀ : State} {out : Tree}

/-! ## Opening and leaving -/

/-- What waits after a node is opened. -/
theorem waiting_of_ends_opening (ha : env.exportsOf s.annotations = env.exportsOf a)
    (h : Ends (opening env options t scope) s () s') :
    s'.waiting = s.waiting ++ calls env a t := by
  unfold Ends at h
  rw [run_opening] at h
  obtain ⟨hresult, rfl⟩ := Prod.mk.inj h
  show s.waiting ++ _ = _
  congr 1
  by_cases hdef : t.node.isDefDef
  · rw [opened_of_method (Rule.find?_eq_method_iff.2 hdef), run_collectExports] at hresult ⊢
    rw [calls, if_pos hdef, ← Env.forwarders_congr ha]
    split
    next hnone =>
      simp only [hnone] at hresult
      cases hresult
    next forwarders report hmembers =>
      rw [← Env.fst_of_exportMembers? hmembers]
      rfl
  · rw [waiting_opened_of_ne_method (mt Rule.find?_eq_method_iff.1 hdef), calls, if_neg hdef]

/-- A node without exports calls for nothing. -/
theorem calls_eq_nil (h : t.node.isDefDef → env.exportsOf a t.symbol = []) :
    calls env a t = [] := by
  unfold calls
  split
  next hdef =>
    rw [Env.forwarders_of_exportsOf_eq_nil (h hdef)]
    rfl
  next => rfl

theorem Quiet.of_ends_opening (henv : env.Installed) (hs : Quiet env s)
    (h : Ends (opening env options t scope) s () s') : Quiet env s' where
  exports r := by
    rw [exportsOf_eq_of_ends_opening henv h]
    exact hs.exports r
  waiting := by
    rw [waiting_of_ends_opening rfl h, hs.waiting, calls_eq_nil fun _ => hs.exports _]
    rfl

/-- What can be opened can be opened without exports. -/
theorem ends_opening_of_quiet (henv : env.Installed)
    (h : Ends (opening env options t scope) s () s') (hs₀ : Quiet env s₀) :
    ∃ s₁, Ends (opening env options t scope) s₀ () s₁ ∧ Quiet env s₁ := by
  have hresult : (opened env options s₀.annotations t scope).1 = .ok () := by
    unfold Ends at h
    rw [run_opening] at h
    have hopened := (Prod.mk.inj h).1
    unfold opened opening at hopened ⊢
    cases hfind : Rule.find? env t scope with
    | none => rfl
    | some rule =>
      rw [hfind] at hopened
      cases rule with
      | jsAnyClass | jsAnyDef =>
        simp only [Rule.enter]
        rw [run_checkJsAny (by simp [hfind])]
      | enumValueDef =>
        simp only [run_discard_liftExcept] at hopened ⊢
        exact hopened
      | method =>
        simp only [Rule.enter, run_collectExports]
        rw [Env.exportMembers?_of_exportsOf_eq_nil (hs₀.exports _)]
      | object => simp only [Rule.enter, run_bind, run_look, run_emit]
      | _ => simp [Rule.enter]
  have hends : Ends (opening env options t scope) s₀ ()
      (run (opening env options t scope) s₀).2 := by
    unfold Ends
    rw [run_opening, hresult]
  exact ⟨_, hends, hs₀.of_ends_opening henv hends⟩

/-- A body is left with the members that waited for it. -/
theorem run_leave_of_isTemplate (ht : t.node.isTemplate) (s : State) :
    run (leave env t) s
      = (.ok (t.withMembers ((s.waiting.filter (·.1 = t.symbol)).map (·.2))),
          { s with waiting := s.waiting.filter fun w => !(decide (w.1 = t.symbol)) }) := by
  obtain ⟨parents, body, hnode⟩ : ∃ parents body, t.node = .template parents body := by
    cases hnode : t.node with
    | template parents body => exact ⟨parents, body, rfl⟩
    | _ =>
      rw [hnode] at ht
      cases ht
  rw [run_leave_of_template hnode, Tree.withMembers, hnode]

theorem run_leave_of_not_isTemplate (ht : ¬ t.node.isTemplate) (s : State) :
    run (leave env t) s
      = (.ok t, { s with report := s.report ++ closingReport env s.annotations t }) := by
  refine run_leave_of_not_template (fun parents body hnode => ?_) s
  rw [hnode] at ht
  exact ht rfl

/-- Where nothing waits a node is left as it is. -/
theorem exists_ends_leave_of_waiting_eq_nil (env : Env) (t : Tree) (hs₀ : s₀.waiting = []) :
    ∃ s₁, Ends (leave env t) s₀ t s₁ ∧ s₁.annotations = s₀.annotations ∧ s₁.waiting = [] := by
  by_cases ht : t.node.isTemplate
  · have hleave : run (leave env t) s₀ = _ := run_leave_of_isTemplate ht s₀
    simp only [hs₀, List.filter_nil, List.map_nil, Tree.withMembers_nil] at hleave
    exact ⟨_, hleave, rfl, rfl⟩
  · exact ⟨_, run_leave_of_not_isTemplate ht s₀, rfl, hs₀⟩

theorem eq_of_ends_leave_of_waiting_eq_nil (hs : s.waiting = [])
    (h : Ends (leave env t) s out s') :
    out = t ∧ s'.annotations = s.annotations ∧ s'.waiting = [] := by
  obtain ⟨s₁, h₁, hs₁⟩ := exists_ends_leave_of_waiting_eq_nil env t hs
  obtain ⟨hout, rfl⟩ := Prod.mk.inj (h₁.symm.trans h)
  exact ⟨(Except.ok.inj hout).symm, hs₁⟩

theorem ends_leave_of_quiet (env : Env) (t : Tree) (hs₀ : Quiet env s₀) :
    ∃ s₁, Ends (leave env t) s₀ t s₁ ∧ Quiet env s₁ := by
  obtain ⟨s₁, h, ha, hwaiting⟩ := exists_ends_leave_of_waiting_eq_nil env t hs₀.waiting
  exact ⟨s₁, h, by rw [ha]; exact hs₀.exports, hwaiting⟩

theorem Quiet.of_ends_leave (hs : Quiet env s) (h : Ends (leave env t) s out s') :
    out = t ∧ Quiet env s' := by
  obtain ⟨hout, ha, hwaiting⟩ := eq_of_ends_leave_of_waiting_eq_nil hs.waiting h
  exact ⟨hout, by rw [ha]; exact hs.exports, hwaiting⟩

/-! ## What is there without exports -/

/-- `f` lists something of nodes that the pass neither builds nor takes out, whatever is below
them. -/
structure Lasting {α : Type} (env : Env) (f : Tree → List α) : Prop where
  built : ∀ u, u.node.isTypable ∨ u.node.isEmpty → f u = []
  token : ∀ u, env.isTypeToken u → f u = []
  kind : ∀ (u : Tree) cs, cs.length = u.children.length → f (u.withChildren cs) = f u

section

-- a list made of a tree that is the same if a node of a kind that the pass builds is left out
variable {α : Type} {g : Tree → List α} (hg : ∀ u, u.node.isTypable → g u = u.children.flatMap g)

include hg

theorem flatMap_typedDynamicCall (receiver : Tree) (method : String) (symbol : SymbolId) (ty : Ty)
    (span : Span) : g (typedDynamicCall receiver method symbol ty span) = g receiver := by
  unfold typedDynamicCall
  rw [hg _ rfl]
  simp only [Tree.children, Node.children, List.flatMap_cons, List.flatMap_nil]
  rw [hg _ rfl, hg _ rfl]
  simp [Tree.children, Node.children, Tree.literal]

/-- What is there below a node after it is put together is what is there of its parts. -/
theorem flatMap_children_of_rebuild (henv : env.Installed) {cs : List Tree}
    (hlength : cs.length = (parts env t scope).length)
    (h : rebuild env options t scope cs = .ok u) : u.children.flatMap g = cs.flatMap g := by
  rcases stages_cases env t scope with
    hkept | ⟨hfind, callee, arg, ht⟩ | ⟨hfind, -⟩
      | ⟨hfind, callee, args, receiver, name, ht, hcallee⟩ | ⟨hfind, receiver, name, ht⟩
  · rw [parts_of_kept hkept] at hlength
    rw [rebuild_of_kept hkept] at h
    cases h
    rw [Tree.children_withChildren hlength]
  · rw [parts_of_typeToken hfind, List.length_nil, List.length_eq_zero_iff] at hlength
    rw [rebuild_of_typeToken hfind] at h
    rw [hlength]
    rcases (tokenResult_eq_ok_iff ht).1 h with ⟨-, rfl⟩ | ⟨-, -, rfl⟩
    · rfl
    · rfl
  · rw [parts_of_enumValueDef hfind] at hlength
    rw [rebuild_of_enumValueDef hfind] at h
    cases h
    rw [Tree.children_withChildren hlength]
  · rw [parts_of_dynamicApply hfind ht hcallee] at hlength
    obtain ⟨r, as, rfl⟩ : ∃ r as, cs = r :: as := List.exists_cons_of_length_eq_add_one hlength
    rw [rebuild_of_dynamicApply hfind ht] at h
    obtain ⟨r', as', hr, has, -, rfl⟩ := (applyDynamic_eq_ok_iff henv).1 h
    have hargs := flatMap_congr_of_forall₂ has fun _ _ _ hb => (eq_of_assign_eq_ok hg hb).symm
    simp only [Tree.children, Node.children, List.flatMap_cons]
    rw [flatMap_typedDynamicCall hg, eq_of_assign_eq_ok hg hr, ← hargs]
    rfl
  · rw [parts_of_dynamicSelect hfind ht] at hlength
    obtain ⟨r, rfl⟩ : ∃ r, cs = [r] := List.length_eq_one_iff.1 hlength
    rw [rebuild_of_dynamicSelect hfind] at h
    obtain ⟨r', hr, -, rfl⟩ := (selectDynamic_eq_ok_iff henv).1 h
    rw [← hg (typedDynamicCall _ _ _ _ _) rfl, flatMap_typedDynamicCall hg,
      eq_of_assign_eq_ok hg hr]
    simp

end

/-- What the pass does not build is below a node of a kind that it builds if it is below a child. -/
theorem flatMap_preorder_of_isTypable {α : Type} {f : Tree → List α}
    (hbuilt : ∀ u, u.node.isTypable → f u = []) (u : Tree) (hu : u.node.isTypable) :
    u.preorder.flatMap f = u.children.flatMap fun c => c.preorder.flatMap f := by
  rw [u.preorder_eq, List.flatMap_cons, hbuilt u hu, List.nil_append, List.flatMap_assoc]

section

variable {α : Type} {f : Tree → List α} (hf : Lasting env f)

include hf

/-- A node that is put together is there as before. -/
theorem Lasting.of_rebuild (henv : env.Installed) {cs : List Tree}
    (hlength : cs.length = (parts env t scope).length)
    (h : rebuild env options t scope cs = .ok u) : f u = f t := by
  rcases stages_cases env t scope with
    hkept | ⟨hfind, callee, arg, ht⟩ | ⟨hfind, hvalue⟩
      | ⟨hfind, callee, args, receiver, name, ht, hcallee⟩ | ⟨hfind, receiver, name, ht⟩
  · rw [parts_of_kept hkept] at hlength
    rw [rebuild_of_kept hkept] at h
    cases h
    exact hf.kind t cs hlength
  · rw [rebuild_of_typeToken hfind] at h
    rw [hf.token t (Rule.find?_eq_typeToken_iff.1 hfind)]
    rcases (tokenResult_eq_ok_iff ht).1 h with ⟨-, rfl⟩ | ⟨-, -, rfl⟩
    · exact hf.built _ (.inr rfl)
    · exact hf.built _ (.inl rfl)
  · rw [parts_of_enumValueDef hfind] at hlength
    rw [rebuild_of_enumValueDef hfind] at h
    cases h
    rw [hf.kind (named env t) cs hlength]
    -- the definition is the same but for its right-hand side
    obtain ⟨rhs, hnamed⟩ := named_of_isUnnamedValueDef hvalue
    obtain ⟨_, _, _, ht, -⟩ := Env.isUnnamedValueDef_iff.1 hvalue
    have hwith : named env t = t.withChildren [rhs] := by
      rw [hnamed, Tree.withChildren, ht]
      rfl
    rw [hwith, hf.kind t [rhs] (by rw [Tree.children, ht]; rfl)]
  · rw [rebuild_of_dynamicApply hfind ht] at h
    obtain ⟨_, _, _, _, _, rfl⟩ := (applyDynamic_eq_ok_iff henv).1 h
    rw [hf.built t (.inl (by rw [ht]; rfl)), hf.built _ (.inl rfl)]
  · rw [rebuild_of_dynamicSelect hfind] at h
    obtain ⟨_, _, _, rfl⟩ := (selectDynamic_eq_ok_iff henv).1 h
    rw [hf.built t (.inl (by rw [ht]; rfl)), hf.built _ (.inl rfl)]

/-- **Without exports** the nodes that are neither built nor taken out are those of the input. -/
theorem flatMap_preorder_of_quiet (henv : env.Installed) (hs : Quiet env s)
    (h : Ends (transform env options t scope) s out s') :
    out.preorder.flatMap f = (env.live t).flatMap f ∧ Quiet env s' := by
  induction t, scope using parts_induction env generalizing s s' out with
  | h t scope ih =>
    obtain ⟨s₁, cs, s₂, u, hopen, hparts, hrebuild, hleave⟩ := ends_transform_iff.1 h
    obtain ⟨hcs, hs₂⟩ := hparts.forall₂_of_preserved (P := Quiet env)
      (fun c hc s c' s' hs h => ih c hc hs h) (hs.of_ends_opening henv hopen)
    obtain ⟨rfl, hs'⟩ := hs₂.of_ends_leave hleave
    refine ⟨?_, hs'⟩
    rw [out.preorder_eq, List.flatMap_cons, List.flatMap_assoc,
      flatMap_children_of_rebuild
        (flatMap_preorder_of_isTypable fun u hu => hf.built u (.inl hu)) henv hparts.length_eq
        hrebuild,
      hf.of_rebuild henv hparts.length_eq hrebuild,
      flatMap_live_parts (fun u hu => hf.built u (.inl hu)) t scope]
    exact congrArg _ (flatMap_congr_of_forall₂ hcs fun _ _ _ h => h.symm).symm

end

end Interop.Pass
