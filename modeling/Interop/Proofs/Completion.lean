import Interop.Proofs.Fit
import Interop.Proofs.Leftovers
import Interop.Proofs.Log

/-!
# Runs that come to an end

The run of a fit unit ends unless one of its visits breaks off, and a run that ends has kept all
that was reported on the way:

    run t ends  ↔  no visit of t breaks off
-/

namespace Interop.Pass

variable {env : Env} {options : Options} {a : Annotations} {t : Tree} {scope : Scope}
  {s s' : State} {out : Tree}

/-! ## Runs that ended -/

/-- What ends has written all that it writes. -/
theorem Writes.eq_written {α : Type} (henv : env.Installed) {m : PassM α} {es : List Event}
    {x : α} (hm : Writes env s.annotations m es) (h : Ends m s x s') :
    s' = written env s.annotations s.report es s'.waiting := by
  obtain ⟨result, done, waiting', -, hdone, hrun⟩ := hm.run_eq henv s.waiting
  obtain ⟨hresult, rfl⟩ := Prod.mk.inj (h.symm.trans (hrun s.annotations s.report rfl))
  rw [hdone x hresult.symm]
  rfl

/-- What ends leaves the exports as they were. -/
theorem Writes.exportsOf_eq {α : Type} (henv : env.Installed) {m : PassM α} {es : List Event}
    {x : α} (hm : Writes env s.annotations m es) (h : Ends m s x s') :
    env.exportsOf s'.annotations = env.exportsOf s.annotations := by
  rw [hm.eq_written henv h]
  exact Env.exportsOf_markAll henv _ _

theorem exportsOf_eq_of_ends_opening (henv : env.Installed)
    (h : Ends (opening env options t scope) s () s') :
    env.exportsOf s'.annotations = env.exportsOf s.annotations :=
  Writes.exportsOf_eq henv (writes_opening t scope) h

theorem exportsOf_eq_of_ends (henv : env.Installed)
    (h : Ends (transform env options t scope) s out s') :
    env.exportsOf s'.annotations = env.exportsOf s.annotations :=
  Writes.exportsOf_eq henv (writes_transform henv options _ t scope) h

/-- When a run ends, each node that it visits had a run that ended. -/
theorem ends_of_mem_visits (henv : env.Installed)
    (h : Ends (transform env options t scope) s out s') {v : Tree × Scope}
    (hv : v ∈ visits env t scope) :
    ∃ s₁ out₁ s₂, env.exportsOf s₁.annotations = env.exportsOf s.annotations
      ∧ Ends (transform env options v.1 v.2) s₁ out₁ s₂ := by
  induction t, scope using parts_induction env generalizing s s' out with
  | h t scope ih =>
    rw [visits_eq, List.mem_cons, List.mem_flatMap] at hv
    rcases hv with rfl | ⟨c, hc, hv⟩
    · exact ⟨s, out, s', rfl, h⟩
    · obtain ⟨s₁, _, _, _, hopen, hparts, -⟩ := ends_transform_iff.1 h
      obtain ⟨s₂, _, _, hs₂, hend⟩ := hparts.exists_of_mem
        (P := fun s' => env.exportsOf s'.annotations = env.exportsOf s.annotations)
        (fun _ _ _ _ _ hs h => (exportsOf_eq_of_ends henv h).trans hs)
        (exportsOf_eq_of_ends_opening henv hopen) hc
      obtain ⟨s₃, _, _, hs₃, hend⟩ := ih c hc hend hv
      exact ⟨s₃, _, _, hs₃.trans hs₂, hend⟩

/-- A dynamic value fits where a shorthand was rewritten. -/
theorem conforms_of_ends (henv : env.Installed) (h : Ends (transform env options t scope) s out s')
    (hfind : Rule.find? env t scope = some .dynamicApply
      ∨ Rule.find? env t scope = some .dynamicSelect) : env.conforms env.dynamicTy t.ty := by
  obtain ⟨_, _, _, _, -, -, hrebuild, -⟩ := ends_transform_iff.1 h
  rcases hfind with hfind | hfind
  · obtain ⟨callee, args, ht, -⟩ := Env.isDynamicApply_iff.1 (Rule.applies_of_find?_eq_some hfind)
    rw [rebuild_of_dynamicApply hfind ht] at hrebuild
    obtain ⟨_, _, _, _, hty, -⟩ := (applyDynamic_eq_ok_iff henv).1 hrebuild
    exact hty
  · rw [rebuild_of_dynamicSelect hfind] at hrebuild
    obtain ⟨_, _, hty, -⟩ := (selectDynamic_eq_ok_iff henv).1 hrebuild
    exact hty

/-- A run over a type token puts a tree in its place, and changes nothing but the report. -/
theorem of_ends_typeToken (ht : env.isTypeToken t)
    (h : Ends (transform env options t scope) s out s') :
    tokenResult env options t = .ok out ∧ s'.annotations = s.annotations
      ∧ s'.waiting = s.waiting := by
  have hfind : Rule.find? env t scope = some .typeToken := Rule.find?_eq_typeToken_iff.2 ht
  obtain ⟨callee, _, _, arg, _, _, _, hnode, -⟩ := Env.isTypeToken_iff.1 ht
  obtain ⟨s₁, cs, s₂, t', hopen, hparts, hrebuild, hleave⟩ := ends_transform_iff.1 h
  obtain rfl := state_of_ends_opening_typeToken hfind hopen
  rw [parts_of_typeToken hfind] at hparts
  rw [rebuild_of_typeToken hfind] at hrebuild
  cases hparts
  rcases ends_leave hleave with ⟨_, _, htemplate, -⟩ | ⟨-, rfl, rfl⟩
  · rcases (tokenResult_eq_ok_iff hnode).1 hrebuild with ⟨-, rfl⟩ | ⟨-, -, rfl⟩
    all_goals cases htemplate
  · exact ⟨hrebuild, rfl, rfl⟩

/-- A reported type token leaves nothing in its place. -/
theorem eq_placeholder_of_ends (ht : env.isTypeToken t) (hreport : tokenReport env options t ≠ [])
    (h : Ends (transform env options t scope) s out s') : out = .placeholder t.span := by
  obtain ⟨callee, _, _, arg, _, _, _, hnode, -⟩ := Env.isTypeToken_iff.1 ht
  rcases (tokenResult_eq_ok_iff hnode).1 (of_ends_typeToken ht h).1 with ⟨-, rfl⟩ | ⟨hnone, -⟩
  · rfl
  · exact absurd hnone hreport

/-! ## Runs that break off -/

/-- When the run of a node ends, so does that of each part. -/
theorem ends_of_mem_parts (h : Ends (transform env options t scope) s out s') {c : Tree}
    (hc : c ∈ parts env t scope) :
    ∃ s₁ out₁ s₂, Ends (transform env options c (inner env t scope)) s₁ out₁ s₂ := by
  obtain ⟨_, _, _, _, -, hparts, -⟩ := ends_transform_iff.1 h
  obtain ⟨s₁, out₁, s₂, -, hend⟩ := hparts.exists_of_mem (P := fun _ => True)
    (fun _ _ _ _ _ _ _ => trivial) trivial hc
  exact ⟨s₁, out₁, s₂, hend⟩

/-- Exports of a method are for a class. -/
theorem exportMembers?_ne_none_of_ends (ha : env.exportsOf s.annotations = env.exportsOf a)
    (hfind : Rule.find? env t scope = some .method)
    (h : Ends (transform env options t scope) s out s') :
    env.exportMembers? a t.symbol ≠ none := by
  intro hnone
  obtain ⟨_, _, _, _, hopen, -⟩ := ends_transform_iff.1 h
  unfold Ends opening at hopen
  rw [hfind] at hopen
  simp only [Rule.enter, run_collectExports] at hopen
  rw [Env.exportMembers?_congr ha, hnone] at hopen
  cases hopen

/-- No dynamic application gets a name. -/
theorem not_isDynamicApply_of_ends (henv : env.Installed)
    (hfind : Rule.find? env t scope = some .enumValueDef) (hvalue : env.isUnnamedValueDef t)
    (hname : isNameable env t) {rhs : Tree} (ht : t.node = .valDef rhs)
    (h : Ends (transform env options t scope) s out s') : ¬ env.isDynamicApply rhs := by
  intro hdynamic
  obtain ⟨rhs', callee, args, ht', hrhs, -, -, hparts⟩ :=
    exists_typedNameCall henv hfind hvalue hname
  obtain rfl : rhs = rhs' := by simpa [ht] using ht'
  obtain ⟨callee', args', hrhs', hselect⟩ := Env.isDynamicApply_iff.1 hdynamic
  obtain ⟨rfl, rfl⟩ : callee = callee' ∧ args = args' := by simpa [hrhs] using hrhs'
  obtain ⟨_, _, _, hend⟩ := ends_of_mem_parts h (hparts ▸ List.mem_singleton_self _)
  -- the named call would be an application of a dynamic value, and of another type
  exact henv.not_conforms_enumTy
    (conforms_of_ends henv hend (.inl (find?_typedNameCall henv hselect)))

/-- The function of a call that is kept is rewritten to a dynamic value if it is a shorthand. -/
theorem conforms_callee_of_ends (henv : env.Installed) (hkept : Kept env t scope) {callee : Tree}
    {args : List Tree} (ht : t.node = .apply callee args) (hselect : env.isDynamicSelect callee)
    (h : Ends (transform env options t scope) s out s') :
    env.conforms env.dynamicTy callee.ty := by
  have hmem : callee ∈ parts env t scope := by
    rw [parts_of_kept hkept]
    exact Tree.callee_mem_children ht
  obtain ⟨_, _, _, hend⟩ := ends_of_mem_parts h hmem
  exact conforms_of_ends henv hend (.inr (Rule.find?_eq_dynamicSelect_iff.2 hselect))

/-- No argument of a dynamic application is a reported type token: what is left in the place of the
token has no type and gets none. -/
theorem not_reported_of_ends (henv : env.Installed)
    (hfind : Rule.find? env t scope = some .dynamicApply) {callee : Tree} {args : List Tree}
    (ht : t.node = .apply callee args) (h : Ends (transform env options t scope) s out s') :
    ∀ arg ∈ args, ¬ (env.isTypeToken arg ∧ tokenReport env options arg ≠ []) := by
  obtain ⟨_, _, _, _, -, hparts, hrebuild, -⟩ := ends_transform_iff.1 h
  obtain ⟨_, _, ht', hselect⟩ := Env.isDynamicApply_iff.1 (Rule.applies_of_find?_eq_some hfind)
  obtain ⟨rfl, rfl⟩ : callee = _ ∧ args = _ := by simpa [ht] using ht'
  obtain ⟨receiver, name, hcallee, -⟩ := Env.isDynamicSelect_iff.1 hselect
  rw [rebuild_of_dynamicApply hfind ht] at hrebuild
  obtain ⟨_, as, -, has, -⟩ := (applyDynamic_eq_ok_iff henv).1 hrebuild
  obtain ⟨hcs, -⟩ := hparts.forall₂_of_preserved (P := fun _ => True)
    (Q := fun c c' => env.isTypeToken c → tokenReport env options c ≠ [] → c' = .placeholder c.span)
    (fun c _ _ _ _ _ h => ⟨fun htoken hreport => eq_placeholder_of_ends htoken hreport h, trivial⟩)
    trivial
  rw [parts_of_dynamicApply hfind ht hcallee] at hcs
  obtain ⟨r, as', -, has', rfl⟩ := List.forall₂_cons_left_iff.1 hcs
  have hnone : List.Forall₂
      (fun c _ => ¬ (env.isTypeToken c ∧ tokenReport env options c ≠ [])) args as := by
    refine forall₂_trans (fun c c' c'' hc hc' => ?_) has' has
    rintro ⟨htoken, hreport⟩
    rw [hc htoken hreport] at hc'
    cases Typing.isTypable_of_assign_eq_ok hc' rfl
  exact forall_of_forall₂_left hnone

/-- A visit that ends was none of those that break off. -/
theorem not_breaksOff_of_ends (henv : env.Installed)
    (hvalue : scope.inEnumSubclass → env.isUnnamedValueDef t → isNameable env t)
    (ha : env.exportsOf s.annotations = env.exportsOf a)
    (h : Ends (transform env options t scope) s out s') : ¬ breaksOff env options a t scope := by
  intro hbreaks
  unfold breaksOff at hbreaks
  split at hbreaks
  next hfind =>
    exact exportMembers?_ne_none_of_ends ha hfind h (Option.isNone_iff_eq_none.1 hbreaks)
  next rhs hfind ht =>
    obtain ⟨hscope, hunnamed⟩ := Rule.find?_eq_enumValueDef_iff.1 hfind
    exact not_isDynamicApply_of_ends henv hfind hunnamed (hvalue hscope hunnamed) ht h hbreaks
  next callee args hfind ht =>
    rw [Bool.and_eq_true, Bool.not_eq_true'] at hbreaks
    rw [conforms_callee_of_ends henv (kept_of_find? hfind rfl) ht hbreaks.1 h] at hbreaks
    cases hbreaks.2
  next callee args hfind ht =>
    rw [Bool.and_eq_true, Bool.not_eq_true'] at hbreaks
    rw [conforms_callee_of_ends henv (kept_of_find? hfind rfl) ht hbreaks.1 h] at hbreaks
    cases hbreaks.2
  next callee args hfind ht =>
    obtain ⟨arg, harg, hbreaks⟩ := List.any_eq_true.1 hbreaks
    simp only [Bool.and_eq_true, Bool.not_eq_true', List.isEmpty_eq_false_iff] at hbreaks
    exact not_reported_of_ends henv hfind ht h arg harg hbreaks
  next => cases hbreaks

/-! ## Runs that end -/

/-- What takes the place of a node with a type has one, other than that of a reported token. -/
theorem resultTy_ne_noType (hty : t.ty ≠ .noType)
    (htoken : ¬ (env.isTypeToken t ∧ tokenReport env options t ≠ [])) :
    resultTy env options t scope ≠ .noType := by
  unfold resultTy
  split
  next => exact fun h => nomatch h
  next => exact fun h => nomatch h
  next hfind =>
    rw [if_pos (not_not.1 fun h => htoken ⟨Rule.find?_eq_typeToken_iff.1 hfind, h⟩)]
    exact fun h => nomatch h
  next => exact hty

/-- A value that a shorthand selects from has a type after its rule. -/
theorem resultTy_receiver_ne_noType (henv : env.Installed) (h : Fit env t scope) {receiver : Tree}
    (hmem : receiver ∈ t.preorder)
    (hty : env.table.typeSymbol receiver.ty = some env.lib.jsDynamic) (scope' : Scope) :
    resultTy env options receiver scope' ≠ .noType := by
  refine resultTy_ne_noType (fun hnone => ?_) fun htoken => ?_
  · rw [hnone] at hty
    cases hty
  · exact henv.not_conforms_tokenTy hty (h.tokens receiver hmem htoken.1)

theorem exists_ends_opening (henv : env.Installed) (h : Fit env t scope)
    (hbreaks : breaksOff env options a t scope = false)
    (ha : env.exportsOf s.annotations = env.exportsOf a) :
    ∃ s', Ends (opening env options t scope) s () s' := by
  suffices hok : (opened env options s.annotations t scope).1 = .ok () by
    unfold Ends
    rw [run_opening, hok]
    exact ⟨_, rfl⟩
  rw [(opened_congr options ha t scope).1]
  unfold opened opening
  cases hfind : Rule.find? env t scope with
  | none => rfl
  | some rule =>
    cases rule with
    | jsAnyClass | jsAnyDef =>
      simp only [Rule.enter]
      rw [run_checkJsAny (by simp [hfind])]
    | enumValueDef =>
      obtain ⟨hvalue, hname⟩ := h.isNameable hfind
      obtain ⟨_, _, _, _, _, _, ⟨t', ht'⟩, -⟩ := exists_typedNameCall henv hfind hvalue hname
      simp only [run_discard_liftExcept, ht']
      rfl
    | method =>
      have hnone : (env.exportMembers? a t.symbol).isNone = false := by
        unfold breaksOff at hbreaks
        rw [hfind] at hbreaks
        exact hbreaks
      obtain ⟨r, hr⟩ := Option.isSome_iff_exists.1 (Option.isNone_eq_false_iff.1 hnone)
      simp only [Rule.enter, run_collectExports, hr]
    | object => simp [Rule.enter, run_bind]
    | _ => simp [Rule.enter]

theorem exists_tokenResult (h : Fit env t scope) (htoken : env.isTypeToken t) :
    ∃ t', tokenResult env options t = .ok t' := by
  obtain ⟨callee, _, _, arg, _, _, _, ht, -⟩ := Env.isTypeToken_iff.1 htoken
  by_cases hreport : tokenReport env options t = []
  · exact ⟨_, (tokenResult_eq_ok_iff ht).2
      (.inr ⟨hreport, h.tokens t t.mem_preorder_self htoken, rfl⟩)⟩
  · exact ⟨_, (tokenResult_eq_ok_iff ht).2 (.inl ⟨hreport, rfl⟩)⟩

theorem exists_applyDynamic (henv : env.Installed) (h : Fit env t scope)
    (hfind : Rule.find? env t scope = some .dynamicApply)
    (hbreaks : breaksOff env options a t scope = false) {callee receiver r : Tree}
    {args as : List Tree} {name : String} (ht : t.node = .apply callee args)
    (hcallee : callee.node = .select receiver name) {scope' : Scope}
    (hr : r.ty = resultTy env options receiver scope')
    (has : List.Forall₂ (fun c c' => c'.ty = resultTy env options c scope') args as) :
    ∃ t', applyDynamic env t callee r as = .ok t' := by
  have hdynamic : env.isDynamicApply t := Rule.applies_of_find?_eq_some hfind
  have hselect : env.isDynamicSelect callee := by
    unfold Env.isDynamicApply at hdynamic
    rw [ht] at hdynamic
    exact hdynamic
  obtain ⟨_, _, hcallee', -, hty⟩ := Env.isDynamicSelect_iff.1 hselect
  obtain ⟨rfl, -⟩ : receiver = _ ∧ name = _ := by simpa [hcallee] using hcallee'
  have hreceiver : receiver ∈ t.preorder :=
    Tree.preorder_subset_of_mem_children (Tree.callee_mem_children ht)
      (Tree.mem_preorder_of_mem_children (Tree.qualifier_mem_children hcallee))
  have hargs : ∀ arg ∈ args, resultTy env options arg scope' ≠ .noType := by
    intro arg harg
    refine resultTy_ne_noType (h.arguments t t.mem_preorder_self hdynamic arg ?_) fun htoken => ?_
    · rw [Tree.children, ht]
      exact harg
    · unfold breaksOff at hbreaks
      rw [hfind, ht] at hbreaks
      have := List.any_eq_false.1 hbreaks arg harg
      simp [htoken] at this
  have htyped : ∀ b ∈ as, b.ty ≠ .noType :=
    forall_of_forall₂_right
      (((List.forall₂_and_left args as).2 ⟨hargs, has⟩).imp fun _ _ h => h.2 ▸ h.1)
  exact ⟨_, (applyDynamic_eq_ok_iff henv).2 ⟨r, as, Typing.assign_of_typed env
    (Ty.isTyped_iff.2 (hr ▸ resultTy_receiver_ne_noType henv h hreceiver hty _)),
    List.forall₂_same.2 fun b hb => Typing.assign_of_typed env (Ty.isTyped_iff.2 (htyped b hb)),
    h.shorthands t (.head _) (.inl hdynamic), rfl⟩⟩

theorem exists_selectDynamic (henv : env.Installed) (h : Fit env t scope)
    (hdynamic : env.isDynamicSelect t) {receiver r : Tree} {name : String}
    (ht : t.node = .select receiver name) {scope' : Scope}
    (hr : r.ty = resultTy env options receiver scope') :
    ∃ t', selectDynamic env t r = .ok t' := by
  obtain ⟨_, _, ht', -, hty⟩ := Env.isDynamicSelect_iff.1 hdynamic
  obtain ⟨rfl, -⟩ : receiver = _ ∧ name = _ := by simpa [ht] using ht'
  have hreceiver := Tree.mem_preorder_of_mem_children (Tree.qualifier_mem_children ht)
  exact ⟨_, (selectDynamic_eq_ok_iff henv).2 ⟨r, Typing.assign_of_typed env
    (Ty.isTyped_iff.2 (hr ▸ resultTy_receiver_ne_noType henv h hreceiver hty _)),
    h.shorthands t (.head _) (.inr hdynamic), rfl⟩⟩

/-- A tree can be put together from parts that have the types that they should. -/
theorem exists_rebuild (henv : env.Installed) (h : Fit env t scope)
    (hbreaks : breaksOff env options a t scope = false) {cs : List Tree}
    (hcs : List.Forall₂ (fun c c' => c'.ty = resultTy env options c (inner env t scope))
      (parts env t scope) cs) :
    ∃ t', rebuild env options t scope cs = .ok t' := by
  rcases stages_cases env t scope with
    hkept | ⟨hfind, -⟩ | ⟨hfind, -⟩ | ⟨hfind, callee, args, receiver, name, ht, hcallee⟩
      | ⟨hfind, receiver, name, ht⟩
  · exact ⟨_, rebuild_of_kept hkept⟩
  · rw [rebuild_of_typeToken hfind]
    exact exists_tokenResult h (Rule.find?_eq_typeToken_iff.1 hfind)
  · exact ⟨_, rebuild_of_enumValueDef hfind⟩
  · rw [parts_of_dynamicApply hfind ht hcallee] at hcs
    obtain ⟨r, as, hr, has, rfl⟩ := List.forall₂_cons_left_iff.1 hcs
    rw [rebuild_of_dynamicApply hfind ht]
    exact exists_applyDynamic henv h hfind hbreaks ht hcallee hr has
  · rw [parts_of_dynamicSelect hfind ht] at hcs
    obtain ⟨r, _, hr, hnil, rfl⟩ := List.forall₂_cons_left_iff.1 hcs
    cases hnil
    rw [rebuild_of_dynamicSelect hfind]
    exact exists_selectDynamic henv h (Rule.find?_eq_dynamicSelect_iff.1 hfind) ht hr

theorem exists_ends_leave (env : Env) (t : Tree) (s : State) :
    ∃ out s', Ends (leave env t) s out s' := by
  by_cases ht : ∃ parents body, t.node = .template parents body
  · obtain ⟨parents, body, ht⟩ := ht
    exact ⟨_, _, run_leave_of_template ht s⟩
  · exact ⟨_, _, run_leave_of_not_template (fun parents body h => ht ⟨parents, body, h⟩) s⟩

/-- **A fit unit comes to an end** if no visit breaks off. -/
theorem exists_ends (henv : env.Installed) (h : Fit env t scope)
    (hbreaks : ∀ v ∈ visits env t scope, breaksOff env options a v.1 v.2 = false)
    (hs : Forwarding s) (ha : env.exportsOf s.annotations = env.exportsOf a) :
    ∃ out s', Ends (transform env options t scope) s out s' := by
  induction t, scope using parts_induction env generalizing s with
  | h t scope ih =>
    have hself := hbreaks _ (mem_visits_self env t scope)
    obtain ⟨s₁, hopen⟩ := exists_ends_opening henv h hself ha
    have hs₁ := forwarding_of_ends_opening hopen hs
    have ha₁ := (exportsOf_eq_of_ends_opening henv hopen).trans ha
    -- the parts are fit, and each leaves the state as the next one needs it
    obtain ⟨cs, s₂, hparts⟩ := Chain.exists_of_forall
      (R := fun c => Ends (transform env options c (inner env t scope)))
      (P := fun s => Forwarding s ∧ env.exportsOf s.annotations = env.exportsOf a)
      (fun c hc s ⟨hs, ha⟩ => by
        obtain ⟨out, s', hend⟩ := ih c hc (h.part henv hself hc)
          (fun v hv => hbreaks v (visits_subset_of_mem_parts hc hv)) hs ha
        exact ⟨out, s', hend, (rewritten_of_ends henv hend hs).2,
          (exportsOf_eq_of_ends henv hend).trans ha⟩)
      ⟨hs₁, ha₁⟩
    obtain ⟨hcs, -⟩ := hparts.forall₂_of_preserved (P := Forwarding)
      (fun c hc s c' s' hs h => rewritten_of_ends henv h hs) hs₁
    obtain ⟨t', ht'⟩ := exists_rebuild henv h hself (hcs.imp fun _ _ h => h.ty_eq)
    obtain ⟨out, s', hleave⟩ := exists_ends_leave env t' s₂
    exact ⟨out, s', ends_transform_iff.2 ⟨s₁, cs, s₂, t', hopen, hparts, ht', hleave⟩⟩

/-! ## Top theorems -/

/-- What is reported on a type token outside others is in the log. -/
theorem mem_reports_log_of_isTypeToken {u : Tree} (hu : u ∈ env.live t) (htoken : env.isTypeToken u)
    {d : Diagnostic} (hd : d ∈ tokenReport env options u) :
    d ∈ reports (log env options a t scope) := by
  have hp : ∀ t : Tree, t.node.isTypable → env.isTypeToken t = false := fun _ =>
    isTypeToken_eq_false_of_isTypable
  have hvisit : u ∈ ((visits env t scope).map (·.1)).filter env.isTypeToken := by
    rw [filter_visits hp, List.mem_filter]
    exact ⟨hu, htoken⟩
  obtain ⟨v, hv, rfl⟩ := List.mem_map.1 (List.mem_filter.1 hvisit).1
  refine mem_reports_log.2 ⟨v, hv, .inl ?_⟩
  rwa [report_opened_of_isTypeToken htoken]

/-- **When a run ends.**  The run of a fit unit ends exactly if none of its visits breaks off, and
then it has kept everything that was reported, also on every type token. -/
theorem completes_iff (ds : List Declaration) (options : Options) (a : Annotations) (t : Tree)
    (h : Fit (.declaring ds) t .root) :
    ((∃ out, (run (transform (.declaring ds) options t .root) { annotations := a }).1 = .ok out)
        ↔ ∀ v ∈ visits (.declaring ds) t .root,
            breaksOff (.declaring ds) options a v.1 v.2 = false)
      ∧ ∀ out s,
          run (transform (.declaring ds) options t .root) { annotations := a } = (.ok out, s) →
          s.report = reports (log (.declaring ds) options a t .root)
          ∧ ∀ u ∈ (Env.declaring ds).live t, (Env.declaring ds).isTypeToken u →
              ∀ d ∈ tokenReport (.declaring ds) options u, d ∈ s.report := by
  have henv := Env.installed_declaring ds
  refine ⟨⟨?_, fun hbreaks => ?_⟩, fun out s hrun => ?_⟩
  · rintro ⟨out, hout⟩ v hv
    have hend : Ends (transform (.declaring ds) options t .root) { annotations := a } out _ :=
      Prod.ext hout rfl
    obtain ⟨s₁, _, _, ha, hend⟩ := ends_of_mem_visits henv hend hv
    exact Bool.eq_false_iff.2 (not_breaksOff_of_ends henv (h.values v hv) ha hend)
  · obtain ⟨out, s', hend⟩ := exists_ends henv h hbreaks (s := { annotations := a })
      (fun w hw => nomatch hw) rfl
    exact ⟨out, congrArg Prod.fst hend⟩
  · have hreport : s.report = reports (log (.declaring ds) options a t .root) := by
      obtain ⟨result, done, -, hdone, hrun'⟩ := run_transform henv options a t
      obtain ⟨waiting, hrun'⟩ := hrun' a rfl
      obtain ⟨hresult, rfl⟩ := Prod.mk.inj (hrun.symm.trans hrun')
      rw [← hdone out hresult.symm]
      rfl
    refine ⟨hreport, fun u hu htoken d hd => ?_⟩
    rw [hreport]
    exact mem_reports_log_of_isTypeToken hu htoken hd

/-- A class and a dynamic value. -/
def classAndDynamic : List Declaration :=
  [⟨some SymbolTable.root, "app", .package⟩,
   ⟨some 29, "Foo", .classDef false [] []⟩,
   ⟨some 29, "d", .value [] (Library.classTy Library.fresh.1.jsDynamic)⟩]

/-- The type token `classOf[Foo]`. -/
def fooToken : Tree :=
  let host : Tree :=
    { node := .this "host", span := ⟨4, 5⟩, symbol := some Library.fresh.1.hostPackage }
  let predef : Tree :=
    { node := .select host "Predef", span := ⟨4, 10⟩, symbol := some Library.fresh.1.predef }
  let callee : Tree :=
    { node := .select predef "classOf", span := ⟨4, 14⟩, symbol := some Library.fresh.1.classOf }
  { node := .typeApply callee
      [{ node := .typeTree, span := ⟨15, 18⟩, ty := Library.classTy 30 }]
    span := ⟨4, 19⟩, ty := Library.classTy Library.fresh.1.classClass }

/-- The application `d.x(arg)`. -/
def appliedTo (arg : Tree) : Tree :=
  let d : Tree :=
    { node := .ident "d", span := ⟨0, 1⟩, symbol := some 31
      ty := Library.classTy Library.fresh.1.jsDynamic }
  { node := .apply { node := .select d "x", span := ⟨0, 3⟩ } [arg], span := ⟨0, 20⟩
    ty := Library.classTy Library.fresh.1.jsDynamic }

/-- The token beside an application. -/
def tokenBesideCall : Tree :=
  let zero : Tree := { node := .literal (.int 0), span := ⟨4, 5⟩, ty := .int }
  { node := .packageDef [fooToken, appliedTo zero], span := ⟨0, 20⟩, symbol := some 29 }

/-- A reported token breaks the run off as an argument, and only there. -/
theorem completes_fooToken :
    (¬ ∃ out, (run (transform (.declaring classAndDynamic) {} (appliedTo fooToken) .root)
          { annotations := .blank 32 }).1 = .ok out)
      ∧ ∃ out, (run (transform (.declaring classAndDynamic) {} tokenBesideCall .root)
          { annotations := .blank 32 }).1 = .ok out := by
  have hargument : Fit (.declaring classAndDynamic) (appliedTo fooToken) .root :=
    ⟨by decide +kernel, by decide +kernel, by decide +kernel, by decide +kernel⟩
  have hbeside : Fit (.declaring classAndDynamic) tokenBesideCall .root :=
    ⟨by decide +kernel, by decide +kernel, by decide +kernel, by decide +kernel⟩
  refine ⟨fun hends => ?_, ?_⟩
  · have hbreaks := (completes_iff classAndDynamic {} (.blank 32) _ hargument).1.1 hends
    exact absurd hbreaks (by decide +kernel)
  · refine (completes_iff classAndDynamic {} (.blank 32) _ hbeside).1.2 ?_
    decide +kernel

end Interop.Pass
