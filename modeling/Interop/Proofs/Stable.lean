import Interop.Proofs.Declarations
import Interop.Proofs.NamedCalls
import Interop.Proofs.ValueNames

/-!
# Preparing a unit again

A tree is stable if no rule changes any node of it.  A run over a stable tree without exports comes
to the tree itself, and what the pass makes of a unit is stable: no shorthand and no type token is
left over, and a value whose name was passed on calls a factory that takes one.  So

    prepare t = out   →   out is stable   →   prepare out = out

The declarations of `out` are visited in the scopes of those of `t`.  Hence the same ones are
accepted in both runs, and marks that are put on twice are there once.
-/

namespace Interop

/-! ## Algorithm -/

/-- No rule changes any node of the tree. -/
def Pass.Stable (env : Env) (t : Tree) (scope : Scope) : Prop :=
  ∀ v ∈ within env t scope, Kept env v.1 v.2

/-! ## Lemmas -/

namespace Pass

variable {env : Env} {options : Options} {a : Annotations} {t u : Tree} {scope : Scope}
  {s s' : State} {out : Tree}

/-! ### Stable trees -/

theorem mem_within_self (env : Env) (t : Tree) (scope : Scope) :
    (t, scope) ∈ within env t scope := by
  rw [within_eq]
  exact .head _

theorem within_subset_of_mem_children {c : Tree} (hc : c ∈ t.children) :
    within env c (inner env t scope) ⊆ within env t scope := by
  intro v hv
  rw [within_eq env t scope]
  exact .tail _ (List.mem_flatMap.2 ⟨c, hc, hv⟩)

namespace Stable

theorem kept (h : Stable env t scope) : Kept env t scope := h _ (mem_within_self env t scope)

theorem part (h : Stable env t scope) {c : Tree} (hc : c ∈ t.children) :
    Stable env c (inner env t scope) :=
  fun v hv => h v (within_subset_of_mem_children hc hv)

/-- All of a stable tree is visited. -/
theorem visits_eq_within (h : Stable env t scope) : visits env t scope = within env t scope := by
  induction t, scope using parts_induction env with
  | h t scope ih =>
    rw [parts_of_kept h.kept] at ih
    rw [visits_eq, within_eq, parts_of_kept h.kept]
    exact congrArg _ (List.flatMap_congr fun c hc => ih c hc (h.part hc))

end Stable

/-- A kept node without exports can be opened, and nothing waits then that did not wait before. -/
theorem exists_ends_opening_of_kept (options : Options) (hkept : Kept env t scope)
    (hexports : t.node.isDefDef → env.exportsOf s.annotations t.symbol = []) :
    ∃ s', Ends (opening env options t scope) s () s' ∧ s'.waiting = s.waiting := by
  have hopened : (opened env options s.annotations t scope).1 = .ok () := by
    unfold opened opening
    cases hfind : Rule.find? env t scope with
    | none => rfl
    | some rule =>
      cases rule with
      | jsAnyClass | jsAnyDef =>
        simp only [Rule.enter]
        rw [run_checkJsAny (by simp [hfind])]
      | enumValueDef => cases hkept _ hfind
      | method =>
        simp only [Rule.enter, run_collectExports]
        rw [Env.exportMembers?_of_exportsOf_eq_nil (hexports (Rule.find?_eq_method_iff.1 hfind))]
      | object => simp only [Rule.enter, run_bind, run_look, run_emit]
      | _ => simp [Rule.enter]
  have hends : Ends (opening env options t scope) s () (run (opening env options t scope) s).2 := by
    unfold Ends
    rw [run_opening, hopened]
  refine ⟨_, hends, ?_⟩
  rw [waiting_of_ends_opening rfl hends, calls_eq_nil hexports, List.append_nil]

/-- **A stable tree without exports** comes to itself. -/
theorem Stable.exists_ends (henv : env.Installed) (options : Options) (h : Stable env t scope)
    (hexports : ∀ v ∈ within env t scope, v.1.node.isDefDef → env.exportsOf a v.1.symbol = [])
    (ha : env.exportsOf s.annotations = env.exportsOf a) (hs : s.waiting = []) :
    ∃ s', Ends (transform env options t scope) s t s' ∧ s'.waiting = [] := by
  induction t, scope using parts_induction env generalizing s with
  | h t scope ih =>
    rw [parts_of_kept h.kept] at ih
    have hnone : t.node.isDefDef → env.exportsOf s.annotations t.symbol = [] := by
      rw [ha]
      exact hexports (t, scope) (mem_within_self env t scope)
    obtain ⟨s₁, hopen, hs₁⟩ := exists_ends_opening_of_kept options h.kept hnone
    have hpart : ∀ c ∈ t.children, ∀ s,
        env.exportsOf s.annotations = env.exportsOf a ∧ s.waiting = [] →
        ∃ s', Ends (transform env options c (inner env t scope)) s c s'
          ∧ env.exportsOf s'.annotations = env.exportsOf a ∧ s'.waiting = [] := by
      rintro c hc s ⟨ha, hs⟩
      obtain ⟨s', hend, hs'⟩ := ih c hc (h.part hc)
        (fun v hv => hexports v (within_subset_of_mem_children hc hv)) ha hs
      exact ⟨s', hend, (exportsOf_eq_of_ends henv hend).trans ha, hs'⟩
    obtain ⟨s₂, hparts, -, hs₂⟩ := Chain.exists_self hpart
      ⟨(exportsOf_eq_of_ends_opening henv hopen).trans ha, hs₁.trans hs⟩
    obtain ⟨s₃, hleave, -, hs₃⟩ := exists_ends_leave_of_waiting_eq_nil env t hs₂
    refine ⟨s₃, ends_transform_iff.2 ⟨s₁, t.children, s₂, t, hopen, ?_, ?_, hleave⟩, hs₃⟩
    · rw [parts_of_kept h.kept]
      exact hparts
    · rw [rebuild_of_kept h.kept, Tree.withChildren_children]

/-! ### Values with their names -/

theorem isUnnamedFactory_namedFactory (henv : env.Installed) (factory : SymbolRef) :
    env.isUnnamedFactory (some (env.namedFactory factory)) = false := by
  unfold Env.isUnnamedFactory Env.namedFactory
  rw [henv.lib_eq]
  split <;> decide

theorem isUnnamedFactory_selectDynamic (henv : env.Installed) :
    env.isUnnamedFactory (some env.lib.selectDynamic) = false := by
  unfold Env.isUnnamedFactory
  rw [henv.lib_eq]
  decide

/-- What comes out as a factory call was no shorthand. -/
theorem not_replaced_of_factoryCall (henv : env.Installed) (h : Becomes env options (t, scope) u)
    {callee : Tree} {args : List Tree} (hu : u.node = .apply callee args)
    (hcallee : callee.node.isReference) (hfactory : env.isUnnamedFactory callee.symbol) :
    ¬ Replaced env t scope := by
  obtain ⟨s, s', h⟩ := h
  obtain ⟨_, cs, _, t', -, -, hrebuild, hleave⟩ := ends_transform_iff.1 h
  rintro ⟨rule, hfind, hrule⟩
  cases rule with
  | typeToken =>
    obtain ⟨_, _, _, arg, _, _, _, ht, -⟩ := Env.isTypeToken_iff.1 (Rule.find?_eq_typeToken_iff.1 hfind)
    rw [rebuild_of_typeToken hfind] at hrebuild
    rcases (tokenResult_eq_ok_iff ht).1 hrebuild with ⟨-, rfl⟩ | ⟨-, -, rfl⟩
    · rcases ends_leave hleave with ⟨_, _, hnode, -⟩ | ⟨-, rfl, -⟩
      · cases hnode
      · cases hu
    · rw [eq_of_ends_leave hleave rfl] at hu
      cases hu
  | dynamicApply =>
    obtain ⟨_, _, ht, -⟩ := Env.isDynamicApply_iff.1 (Rule.applies_of_find?_eq_some hfind)
    rw [rebuild_of_dynamicApply hfind ht] at hrebuild
    obtain ⟨_, _, _, _, _, rfl⟩ := (applyDynamic_eq_ok_iff henv).1 hrebuild
    rw [eq_of_ends_leave hleave rfl] at hu
    cases hu
    cases hcallee
  | dynamicSelect =>
    rw [rebuild_of_dynamicSelect hfind] at hrebuild
    obtain ⟨_, _, _, rfl⟩ := (selectDynamic_eq_ok_iff henv).1 hrebuild
    rw [eq_of_ends_leave hleave rfl] at hu
    cases hu
    rw [isUnnamedFactory_selectDynamic henv] at hfactory
    cases hfactory
  | _ => cases hrule

/-- What comes out as a reference is the reference that it was. -/
theorem resembles_of_isReference (henv : env.Installed) (h : Becomes env options (t, scope) u)
    (hu : u.node.isReference) : t.Resembles u := by
  obtain ⟨s, s', h⟩ := h
  refine resembles_of_ends h fun hreplaced => ?_
  rcases (replacement_of_ends henv h hreplaced).2 with ⟨_, -, -, -, rfl⟩ | ⟨hexpression, -⟩
  · cases hu
  · cases hnode : u.node <;> simp [hnode, Node.isReference, Node.isExpression] at hu hexpression

theorem kept_of_not_replaced (h : ¬ Replaced env t scope)
    (hvalue : Rule.find? env t scope ≠ some .enumValueDef) : Kept env t scope := by
  intro rule hfind
  cases rule with
  | typeToken | dynamicApply | dynamicSelect => exact absurd ⟨_, hfind, rfl⟩ h
  | enumValueDef => exact absurd hfind hvalue
  | _ => rfl

/-- What comes out as a factory call was one. -/
theorem exists_of_becomes_factoryCall (henv : env.Installed) (h : Becomes env options (t, scope) u)
    {callee' : Tree} {args' : List Tree} (hu : u.node = .apply callee' args')
    (hcallee' : callee'.node.isReference) (hfactory : env.isUnnamedFactory callee'.symbol) :
    ∃ callee args, t.node = .apply callee args ∧ callee.node.isReference
      ∧ env.isUnnamedFactory callee.symbol := by
  have hnot := not_replaced_of_factoryCall henv h hu hcallee' hfactory
  obtain ⟨callee, args, ht⟩ : ∃ callee args, t.node = .apply callee args := by
    obtain ⟨s, s', hends⟩ := h
    have hshape := (resembles_of_ends hends hnot).shape_eq
    cases hnode : t.node <;> simp [hu, hnode, Node.shape, Node.withChildren] at hshape ⊢
  have hkept : Kept env t scope := by
    refine kept_of_not_replaced hnot fun hfind => ?_
    have hmem := Rule.mem_candidates_of_find?_eq_some hfind
    simp [ht, Rule.candidates] at hmem
  obtain ⟨cs, hcs, rfl⟩ := exists_of_becomes hkept (by rw [ht]; rfl) h
  rw [Tree.children, ht] at hcs
  obtain ⟨c, as, hc, -, rfl⟩ := List.forall₂_cons_left_iff.1 hcs
  rw [Tree.withChildren, ht] at hu
  cases hu
  have hsame := resembles_of_isReference henv hc hcallee'
  refine ⟨callee, args, ht, ?_, ?_⟩
  · rw [← Node.isReference_shape, ← hsame.shape_eq, Node.isReference_shape]
    exact hcallee'
  · rw [← hsame.symbol_eq]
    exact hfactory

/-- **No value is named twice.**  A definition that comes out in an enumeration calls no factory
that takes no name. -/
theorem not_isUnnamedValueDef_of_becomes (henv : env.Installed) (hscope : scope.inEnumSubclass)
    (ht : t.node.isDeclaration) (h : Becomes env options (t, scope) u) :
    ¬ env.isUnnamedValueDef u := by
  intro hvalue
  obtain ⟨rhs', callee', args', hu, hrhs', hcallee', hfactory⟩ := Env.isUnnamedValueDef_iff.1 hvalue
  by_cases hfind : Rule.find? env t scope = some .enumValueDef
  · -- the definition has its name, so the factory takes one
    obtain ⟨_, _, hends⟩ := h
    obtain ⟨_, _, _, _, _, _, _, _, _, -, -, -, -, -, -, rfl⟩ :=
      getsName_of_ends henv hfind hends
    cases hu
    cases hrhs'
    rw [isUnnamedFactory_namedFactory henv] at hfactory
    cases hfactory
  · have hnot : ¬ Replaced env t scope := not_replaced_of_isDeclaration ht
    obtain ⟨rhs, ht⟩ : ∃ rhs, t.node = .valDef rhs := by
      obtain ⟨s, s', hends⟩ := h
      have hshape := (resembles_of_ends hends hnot).shape_eq
      cases hnode : t.node <;> simp [hu, hnode, Node.shape, Node.withChildren] at hshape ⊢
    have hkept : Kept env t scope := kept_of_not_replaced hnot hfind
    obtain ⟨_, hcs, rfl⟩ := exists_of_becomes_of_kept hkept (by simp [ht, Node.isImplDef])
      (by simp [ht, Node.isTemplate]) h
    rw [Tree.children, ht] at hcs
    obtain ⟨_, _, hrhs, hnil, rfl⟩ := List.forall₂_cons_left_iff.1 hcs
    cases hnil
    rw [Tree.withChildren, ht] at hu
    cases hu
    obtain ⟨callee, args, hnode, hcallee, hfactory⟩ :=
      exists_of_becomes_factoryCall henv hrhs hrhs' hcallee' hfactory
    exact hfind (Rule.find?_eq_enumValueDef_iff.2
      ⟨hscope, Env.isUnnamedValueDef_iff.2 ⟨rhs, callee, args, ht, hnode, hcallee, hfactory⟩⟩)

/-! ### What comes out -/

/-- **What the pass makes of a unit is stable**, if nothing is left over. -/
theorem stable_of_ends (henv : env.Installed) (h : Ends (transform env options t scope) s out s')
    (hs : Forwarding s) (hleft : env.leftovers out = []) : Stable env out scope := by
  have hnone : ∀ u ∈ out.preorder, env.isDynamicSelect u = false ∧ env.isTypeToken u = false := by
    intro u hu
    have hat : env.leftoverAt u = none := List.filterMap_eq_nil_iff.1 hleft u hu
    unfold Env.leftoverAt at hat
    split at hat
    next => cases hat
    next hselect =>
      split at hat
      next => cases hat
      next htoken => exact ⟨Bool.eq_false_iff.2 hselect, Bool.eq_false_iff.2 htoken⟩
  rintro ⟨u, uscope⟩ hu
  have hmem : u ∈ out.preorder := by
    rw [← map_fst_within env out scope]
    exact List.mem_map_of_mem hu
  refine kept_of_not_replaced ?_ fun hfind => ?_
  · rintro ⟨rule, hfind, hrule⟩
    cases rule with
    | typeToken =>
      rw [Rule.find?_eq_typeToken_iff, (hnone u hmem).2] at hfind
      cases hfind
    | dynamicApply =>
      obtain ⟨callee, args, hnode, hselect⟩ :=
        Env.isDynamicApply_iff.1 (Rule.applies_of_find?_eq_some hfind)
      have hcallee : callee ∈ out.preorder :=
        Tree.preorder_subset_of_mem_preorder hmem
          (Tree.mem_preorder_of_mem_children (Tree.callee_mem_children hnode))
      rw [(hnone callee hcallee).1] at hselect
      cases hselect
    | dynamicSelect =>
      rw [Rule.find?_eq_dynamicSelect_iff, (hnone u hmem).1] at hfind
      cases hfind
    | _ => cases hrule
  · obtain ⟨hscope, hvalue⟩ := Rule.find?_eq_enumValueDef_iff.1 hfind
    obtain ⟨_, _, _, hnode, -⟩ := Env.isUnnamedValueDef_iff.1 hvalue
    obtain ⟨⟨d, dscope⟩, hd, hbecomes, rfl⟩ := exists_of_forall₂_of_mem
      (within_of_ends henv h hs).1.flip (List.mem_filter.2 ⟨hu, by rw [hnode]; rfl⟩)
    exact not_isUnnamedValueDef_of_becomes henv hscope (List.mem_filter.1 hd).2 hbecomes.becomes
      hvalue

/-- Each declaration that comes out is one of the unit. -/
theorem exists_of_mem_within (henv : env.Installed)
    (h : Ends (transform env options t scope) s out s') (hs : Forwarding s) {w : Tree × Scope}
    (hw : w ∈ within env out scope) (hdecl : w.1.node.isDeclaration) :
    ∃ d ∈ t.preorder, d.Resembles w.1 := by
  obtain ⟨v, hv, ⟨s₁, s₂, -, hends⟩, -⟩ := exists_of_forall₂_of_mem (within_of_ends henv h hs).1.flip
    (List.mem_filter.2 ⟨hw, hdecl⟩)
  obtain ⟨hv, hv'⟩ := List.mem_filter.1 hv
  refine ⟨v.1, env.live_subset_preorder t ?_,
    resembles_of_ends hends (not_replaced_of_isDeclaration hv')⟩
  have hlive := filter_visits (p := (·.node.isDeclaration)) isDeclaration_of_isTypable env t scope
  refine List.mem_of_mem_filter (p := (·.node.isDeclaration)) ?_
  rw [← hlive]
  exact List.mem_filter.2 ⟨List.mem_map_of_mem hv, hv'⟩

/-- What takes the place of a declaration is accepted if that is. -/
theorem accepts_of_ends (henv : env.Installed) (h : Ends (transform env options t scope) s out s') :
    accepts env out scope = accepts env t scope := by
  by_cases ht : t.node.isImplDef
  · have hsame := resembles_of_ends h (not_replaced_of_isDeclaration (isDeclaration_of_isImplDef ht))
    have hobject := congrArg Node.isObjectDef hsame.shape_eq
    simp only [Node.isObjectDef_shape] at hobject
    unfold accepts Env.structuralProblems
    rw [find?_of_resembles hsame ht, hsame.symbol_eq, hobject]
  · have hout : ¬ out.node.isImplDef := by
      rwa [← Node.isImplDef_shape, kind_of_ends henv (fun _ => isDeclaration_of_isImplDef) h,
        Node.isImplDef_shape]
    rw [Bool.eq_false_iff.2 (mt isImplDef_of_accepts ht),
      Bool.eq_false_iff.2 (mt isImplDef_of_accepts hout)]

/-- What is marked in the unit is what is marked in what it comes to. -/
theorem marks_log_of_ends (henv : env.Installed) (h : Ends (transform env options t scope) s out s')
    (hs : Forwarding s) (hstable : Stable env out scope) (options' : Options) (a b : Annotations) :
    marks (log env options' b out scope) = marks (log env options a t scope) := by
  have hfilter : ∀ vs : List (Tree × Scope), vs.filter (fun v => accepts env v.1 v.2)
      = (vs.filter (·.1.node.isDeclaration)).filter fun v => accepts env v.1 v.2 := by
    intro vs
    rw [List.filter_filter]
    refine List.filter_congr fun v _ => ?_
    rw [eq_comm, Bool.and_eq_left_iff_imp]
    exact fun haccepts => isDeclaration_of_isImplDef (isImplDef_of_accepts haccepts)
  have hpairs := (List.forall₂_and_left _ _).2
    ⟨fun v hv => (List.mem_filter.1 hv).2, (within_of_ends henv h hs).1⟩
  have haccepts : ∀ v w : Tree × Scope,
      v.1.node.isDeclaration ∧ BecomesIn env options (t, scope) s v w.1 ∧ w.2 = v.2 →
        (accepts env v.1 v.2 ↔ accepts env w.1 w.2) := by
    rintro v w ⟨-, ⟨s, s', -, h⟩, hscope⟩
    rw [hscope, accepts_of_ends henv h]
  have haccepted := List.rel_filter (p := fun v => accepts env v.1 v.2)
    (q := fun w => accepts env w.1 w.2) (fun v w h => haccepts v w h) hpairs
  rw [marks_log, marks_log, hstable.visits_eq_within, hfilter (within env out scope),
    hfilter (visits env t scope), eq_comm, ← List.forall₂_eq_eq_eq, List.forall₂_map_left_iff,
    List.forall₂_map_right_iff]
  refine haccepted.imp ?_
  rintro v w ⟨hv, ⟨s, s', -, h⟩, -⟩
  have hsame := resembles_of_ends h (not_replaced_of_isDeclaration hv)
  unfold markOf
  rw [hsame.symbol_eq, hsame.span_eq]

/-! ## Top theorem -/

/-- **To prepare a unit again changes nothing.**  Let no method of a unit ask to be exported.  If
the unit is prepared, then so is what it comes to, whatever the options are: it comes to itself, and
all annotations stay as they are. -/
theorem prepare_idempotent (ds : List Declaration) (options options' : Options) (a : Annotations)
    (t : Tree) (prepared : Prepared)
    (hok : (prepare (.declaring ds) options t a).1 = .ok prepared)
    (hexports : ∀ u ∈ t.preorder, u.node.isDefDef →
      (Env.declaring ds).exportsOf a u.symbol = []) :
    ∃ report, prepare (.declaring ds) options' prepared.tree
        (prepare (.declaring ds) options t a).2
      = (.ok ⟨prepared.tree, report⟩, (prepare (.declaring ds) options t a).2) := by
  have henv := Env.installed_declaring ds
  obtain ⟨s, hends, hleft, -⟩ := prepare_eq_ok_iff.1 hok
  have hannotations : (prepare (.declaring ds) options t a).2 = s.annotations := by
    rw [prepare_eq, hends]
  have hnone : Forwarding { annotations := a } := fun w hw => nomatch hw
  have hstable := stable_of_ends henv hends hnone hleft
  have ha := exportsOf_eq_of_ends henv hends
  -- the methods that come out are those of the unit
  have hmethods : ∀ w ∈ within (.declaring ds) prepared.tree .root, w.1.node.isDefDef →
      (Env.declaring ds).exportsOf s.annotations w.1.symbol = [] := by
    intro w hw hdef
    obtain ⟨d, hd, hsame⟩ := exists_of_mem_within henv hends hnone hw (isDeclaration_of_isDefDef hdef)
    rw [ha, hsame.symbol_eq]
    refine hexports d hd ?_
    rwa [← Node.isDefDef_shape, ← hsame.shape_eq, Node.isDefDef_shape]
  obtain ⟨s₁, hagain, -⟩ := Stable.exists_ends henv options' (s := { annotations := s.annotations })
    hstable hmethods rfl rfl
  have hmarks : s₁.annotations = s.annotations := by
    rw [(writes_transform henv options' _ _ _).eq_written henv hagain,
      (writes_transform henv options _ _ _).eq_written henv hends]
    show Env.markAll _ (marks (log _ _ _ _ _)) (Env.markAll _ (marks (log _ _ _ _ _)) a) = _
    rw [marks_log_of_ends henv hends hnone hstable options' a]
    exact Env.markAll_markAll _ _
  refine ⟨s₁.report, ?_⟩
  rw [hannotations, prepare_eq, hagain, hmarks]
  simp only [bind, Except.bind, hleft]

/-- An enumeration with a value, and a trait that extends the marker type. -/
def planetsAndShape : List Declaration :=
  planets ++ [⟨some 29, "Shape", .classDef true [] [Library.classTy Library.fresh.1.jsAny]⟩]

def planetsAndShapeUnit : Tree :=
  { node := .packageDef [planetsObject, classTree 33 ⟨60, 80⟩ []], span := ⟨0, 80⟩
    symbol := some 29 }

/-- The value keeps the name that it got, and the trait the one marker. -/
theorem prepare_idempotent_planetsAndShape : ∃ prepared report,
    (prepare (.declaring planetsAndShape) {} planetsAndShapeUnit (.blank 34)).1 = .ok prepared
      ∧ prepare (.declaring planetsAndShape) { foldTokens := true } prepared.tree
          (prepare (.declaring planetsAndShape) {} planetsAndShapeUnit (.blank 34)).2
        = (.ok ⟨prepared.tree, report⟩,
            (prepare (.declaring planetsAndShape) {} planetsAndShapeUnit (.blank 34)).2) := by
  have hok : (prepare (.declaring planetsAndShape) {} planetsAndShapeUnit (.blank 34)).1.isOk := by
    decide +kernel
  obtain ⟨prepared, hok⟩ := exists_prepared hok
  obtain ⟨report, hagain⟩ := prepare_idempotent planetsAndShape {} { foldTokens := true }
    (.blank 34) planetsAndShapeUnit prepared hok (by decide +kernel)
  exact ⟨prepared, report, hok, hagain⟩

end Pass

end Interop
