import Interop.Proofs.Delivery

/-!
# Packages are traversed statement by statement

What a traversal hands on to what comes next are its report, the annotations and the forwarders
that wait.  The report before is only added to, and nothing waits behind a statement in which each
exported method stands in a body of its owner.  So for a package

    first ++ second   ↦   first,  and then second on the annotations that first left

where the statements and the reports of both are put together, unless one of them fails.
-/

namespace Interop

/-! ## Algorithm -/

/-- A package with its statements. -/
def packageTree (span : Span) (ty : Ty) (symbol : SymbolRef) (stats : List Tree) : Tree :=
  { node := .packageDef stats, span, ty, symbol }

namespace Pass

/-- Each exported method in the tree stands in a body of its owner. -/
def Housed (env : Env) (a : Annotations) (t : Tree) : Prop :=
  ∀ v ∈ env.nested (·.node.isTemplate) [] t, v.1.node.isDefDef →
    env.exportsOf a v.1.symbol ≠ [] → ∃ o ∈ v.2, o.symbol = env.table.owner v.1.symbol

instance (env : Env) (a : Annotations) (t : Tree) : Decidable (Housed env a t) := by
  unfold Housed
  infer_instance

/-! ## Lemmas -/

variable {env : Env} {options : Options} {a : Annotations} {t u : Tree} {scope : Scope}
  {s s' : State} {out : Tree}

/-! ### What waits -/

/-- A method that calls for forwarders is exported. -/
theorem exportsOf_ne_nil_of_mem_calls {w : SymbolRef × Tree} (hw : w ∈ calls env a t) :
    t.node.isDefDef ∧ env.exportsOf a t.symbol ≠ [] ∧ w.1 = env.table.owner t.symbol := by
  have hdef := isDefDef_of_mem_calls hw
  refine ⟨hdef, fun hnone => ?_, ?_⟩
  · rw [calls_eq_nil fun _ => hnone] at hw
    cases hw
  · rw [calls, if_pos hdef] at hw
    obtain ⟨f, -, rfl⟩ := List.mem_map.1 hw
    rfl

/-- A body releases what waits for it. -/
theorem waiting_of_ends_leave (henv : env.Installed) {cs : List Tree}
    (hrebuild : rebuild env options t scope cs = .ok u) (h : Ends (leave env u) s out s')
    {w : SymbolRef × Tree} (hw : w ∈ s'.waiting) :
    w ∈ s.waiting ∧ (t.node.isTemplate → w.1 ≠ t.symbol) := by
  obtain ⟨htemplate, hsymbol⟩ := of_rebuild_eq_ok henv hrebuild
  unfold Ends at h
  by_cases ht : u.node.isTemplate
  · rw [run_leave_of_isTemplate ht] at h
    obtain ⟨-, rfl⟩ := Prod.mk.inj h
    obtain ⟨hw, hne⟩ := List.mem_filter.1 hw
    refine ⟨hw, fun ht => ?_⟩
    rw [hsymbol ht] at hne
    simpa using hne
  · rw [run_leave_of_not_isTemplate ht] at h
    obtain ⟨-, rfl⟩ := Prod.mk.inj h
    refine ⟨hw, fun ht' => ?_⟩
    rw [← htemplate] at ht'
    exact absurd ht' ht

/-- **What waits behind a tree** waited before, or is for one of `os`, if the exported methods stand
in bodies of their owners or have owners among `os`. -/
theorem waiting_of_ends (henv : env.Installed) (os : List SymbolRef)
    (hinside : ∀ v ∈ env.nested (·.node.isTemplate) [] t, v.1.node.isDefDef →
      env.exportsOf a v.1.symbol ≠ [] →
      env.table.owner v.1.symbol ∈ os ∨ ∃ o ∈ v.2, o.symbol = env.table.owner v.1.symbol)
    (ha : env.exportsOf s.annotations = env.exportsOf a)
    (h : Ends (transform env options t scope) s out s') :
    ∀ w ∈ s'.waiting, w ∈ s.waiting ∨ w.1 ∈ os := by
  induction t, scope using parts_induction env generalizing s s' out os with
  | h t scope ih =>
    obtain ⟨s₁, cs, s₂, u, hopen, hparts, hrebuild, hleave⟩ := ends_transform_iff.1 h
    -- below a body, forwarders may wait for it too
    obtain ⟨os', hos'⟩ : ∃ os', os' = if t.node.isTemplate then t.symbol :: os else os := ⟨_, rfl⟩
    have hsubset : os ⊆ os' := by
      rw [hos']
      split
      next => exact List.subset_cons_self _ _
      next => exact List.Subset.refl _
    have hopened : ∀ w ∈ s₁.waiting, w ∈ s.waiting ∨ w.1 ∈ os' := by
      intro w hw
      rw [waiting_of_ends_opening ha hopen, List.mem_append] at hw
      refine hw.imp_right fun hw => hsubset ?_
      obtain ⟨hdef, hexports, howner⟩ := exportsOf_ne_nil_of_mem_calls hw
      rw [howner]
      exact (hinside _ (Env.mem_nested_self env _ _ _) hdef hexports).resolve_right (by simp)
    have hpart : ∀ c ∈ parts env t scope, ∀ v ∈ env.nested (·.node.isTemplate) [] c,
        v.1.node.isDefDef → env.exportsOf a v.1.symbol ≠ [] →
        env.table.owner v.1.symbol ∈ os'
          ∨ ∃ o ∈ v.2, o.symbol = env.table.owner v.1.symbol := by
      intro c hc v hv hdef hexports
      have hmem := mem_nested_of_mem_parts isTemplate_of_isTypable isDefDef_of_isTypable hc hv hdef
      rcases hinside _ hmem hdef hexports with howner | ⟨o, ho, hsymbol⟩
      · exact .inl (hsubset howner)
      · rcases List.mem_append.1 ho with ho | ho
        · exact .inr ⟨o, ho, hsymbol⟩
        · left
          split at ho
          next ht =>
            rw [List.mem_singleton.1 ho] at hsymbol
            rw [hos', if_pos ht, ← hsymbol]
            exact .head _
          next => cases ho
    obtain ⟨-, -, hs₂⟩ := hparts.forall₂_of_preserved
      (P := fun s' => env.exportsOf s'.annotations = env.exportsOf a
        ∧ ∀ w ∈ s'.waiting, w ∈ s.waiting ∨ w.1 ∈ os')
      (Q := fun _ _ => True)
      (fun c hc s₁ c' s₂ ⟨ha, hs₁⟩ h => by
        refine ⟨trivial, (exportsOf_eq_of_ends henv h).trans ha, fun w hw => ?_⟩
        exact (ih c hc os' (hpart c hc) ha h w hw).elim (hs₁ w) .inr)
      ⟨(exportsOf_eq_of_ends_opening henv hopen).trans ha, hopened⟩
    intro w hw
    obtain ⟨hw, hne⟩ := waiting_of_ends_leave henv hrebuild hleave hw
    refine (hs₂ w hw).imp_right fun hw => ?_
    rw [hos'] at hw
    split at hw
    next ht => exact (List.mem_cons.1 hw).resolve_left (hne ht)
    next => exact hw

/-! ### Runs -/

/-- What was reported before stays in front, and does not matter. -/
theorem run_transform_of_report (henv : env.Installed) (options : Options) (t : Tree)
    (scope : Scope) (a : Annotations) (report : Report) (waiting : List (SymbolRef × Tree)) :
    run (transform env options t scope) ⟨a, report, waiting⟩
      = match run (transform env options t scope) ⟨a, [], waiting⟩ with
        | (result, s) => (result, { s with report := report ++ s.report }) := by
  obtain ⟨result, done, waiting', -, -, hrun⟩ :=
    (writes_transform henv options a t scope).run_eq henv waiting
  rw [hrun a report rfl, hrun a [] rfl]
  rfl

theorem run_mapM_append {α β : Type} (f : α → PassM β) (as bs : List α) (s : State) :
    run ((as ++ bs).mapM f) s = match run (as.mapM f) s with
      | (.error e, s₁) => (.error e, s₁)
      | (.ok cs, s₁) => match run (bs.mapM f) s₁ with
        | (result, s₂) => (result.map (cs ++ ·), s₂) := by
  rw [List.mapM_append, run_bind]
  rcases run (as.mapM f) s with ⟨e | cs, s₁⟩
  · rfl
  · simp only [run_bind]
    rcases run (bs.mapM f) s₁ with ⟨e | ds, s₂⟩
    · rfl
    · rfl

/-- A package is its statements, one after the other. -/
theorem run_packageTree (env : Env) (options : Options) (span : Span) (ty : Ty) (symbol : SymbolRef)
    (stats : List Tree) (scope : Scope) (s : State) :
    run (transform env options (packageTree span ty symbol stats) scope) s
      = match run (stats.mapM fun c => transform env options c scope) s with
        | (result, s₁) => (result.map (packageTree span ty symbol), s₁) := by
  have hfind : Rule.find? env (packageTree span ty symbol stats) scope = none := by
    rw [Rule.find?_eq_candidates]
    rfl
  have hopening : opening env options (packageTree span ty symbol stats) scope = pure () := by
    unfold opening
    rw [hfind]
  have hparts : parts env (packageTree span ty symbol stats) scope = stats := by
    unfold parts
    rw [hfind]
    rfl
  have hinner : inner env (packageTree span ty symbol stats) scope = scope := by
    unfold inner
    rw [hfind]
  have hrebuild : ∀ cs, rebuild env options (packageTree span ty symbol stats) scope cs
      = .ok (packageTree span ty symbol cs) := by
    intro cs
    unfold rebuild
    rw [hfind]
    rfl
  rw [transform_eq, hopening, hparts, hinner, run_bind]
  simp only [run_pure, run_bind, hrebuild, run_liftExcept]
  rcases run (stats.mapM fun c => transform env options c scope) s with ⟨e | cs, s₁⟩
  · rfl
  · rfl

/-- Nothing waits behind statements in which each exported method stands in a body of its owner. -/
theorem waiting_eq_nil_of_housed (henv : env.Installed) {stats outs : List Tree}
    (hhoused : ∀ c ∈ stats, Housed env a c) (ha : env.exportsOf s.annotations = env.exportsOf a)
    (hs : s.waiting = []) (h : Ends (stats.mapM fun c => transform env options c scope) s outs s') :
    s'.waiting = [] := by
  obtain ⟨-, -, hs'⟩ := (ends_mapM_iff.1 h).forall₂_of_preserved
    (P := fun s => env.exportsOf s.annotations = env.exportsOf a ∧ s.waiting = [])
    (Q := fun _ _ => True)
    (fun c hc s₁ c' s₂ ⟨ha, hs₁⟩ h => by
      refine ⟨trivial, (exportsOf_eq_of_ends henv h).trans ha, ?_⟩
      rw [List.eq_nil_iff_forall_not_mem]
      intro w hw
      have hinside := waiting_of_ends henv [] (fun v hv hdef hexports =>
        .inr (hhoused c hc v hv hdef hexports)) ha h w hw
      rw [hs₁] at hinside
      simp at hinside)
    ⟨ha, hs⟩
  exact hs'

/-! ## Top theorem -/

/-- **Packages are traversed statement by statement.**  Let each exported method in the statements
`first` stand, within its statement, in a body of its owner.  The traversal of a package of `first`
and `second` comes to what it comes to for `first`, if that fails.  Otherwise it goes on as a
traversal of a package of `second` would, with the annotations that `first` left: it fails if that
does, or has the statements of both, and in each case the reports of both, in order, and the
annotations after `second`. -/
theorem run_packageTree_append (ds : List Declaration) (options : Options) (a : Annotations)
    (span : Span) (ty : Ty) (symbol : SymbolRef) (first second : List Tree)
    (hhoused : ∀ c ∈ first, Housed (.declaring ds) a c) :
    run (transform (.declaring ds) options (packageTree span ty symbol (first ++ second)) .root)
        { annotations := a }
      = match run (transform (.declaring ds) options (packageTree span ty symbol first) .root)
            { annotations := a } with
        | (.error stop, s₁) => (.error stop, s₁)
        | (.ok out₁, s₁) =>
          match run (transform (.declaring ds) options (packageTree span ty symbol second) .root)
              { annotations := s₁.annotations } with
          | (result, s₂) =>
            (result.map fun out₂ => packageTree span ty symbol (out₁.children ++ out₂.children),
              { s₂ with report := s₁.report ++ s₂.report }) := by
  have henv := Env.installed_declaring ds
  rw [run_packageTree, run_packageTree, run_mapM_append]
  rcases hfirst : run (first.mapM fun c => transform (.declaring ds) options c .root)
    { annotations := a } with ⟨stop | cs, s₁⟩
  · rfl
  · have hwaiting : s₁.waiting = [] := waiting_eq_nil_of_housed henv hhoused rfl rfl hfirst
    -- the second package may as well come behind the reports of the first
    have hsecond := run_transform_of_report henv options (packageTree span ty symbol second) .root
      s₁.annotations s₁.report []
    have hs₁ : s₁ = ⟨s₁.annotations, s₁.report, []⟩ := by rw [← hwaiting]
    rw [← hs₁, run_packageTree] at hsecond
    have hcs : Except.map (packageTree span ty symbol) (.ok cs : Except Abort (List Tree))
        = .ok (packageTree span ty symbol cs) := rfl
    simp only [hcs]
    rcases hstats : run (second.mapM fun c => transform (.declaring ds) options c .root) s₁
      with ⟨result, s₂⟩
    rcases hpackage : run (transform (.declaring ds) options (packageTree span ty symbol second)
      .root) { annotations := s₁.annotations } with ⟨result', s₂'⟩
    rw [hstats, hpackage] at hsecond
    obtain ⟨rfl, rfl⟩ := Prod.mk.inj hsecond
    cases result with
    | error stop => rfl
    | ok outs => rfl

/-- A class of `innerMethods` with its method. -/
def classWithMethod (symbol method : SymbolId) (start : Nat) : Tree :=
  let body : Tree :=
    { node := .literal (.int 1), span := ⟨start + 8, start + 9⟩, ty := .int }
  classTree symbol ⟨start, start + 20⟩
    [{ node := .defDef [] body, span := ⟨start + 4, start + 9⟩, symbol := some method }]

def innerClass : Tree := classWithMethod 32 33 0

def outerClass : Tree := classWithMethod 30 31 30

def innerPackage (stats : List Tree) : Tree := packageTree ⟨0, 60⟩ .noType (some 29) stats

/-- The forwarder for the first class is not in the way of those for the second. -/
theorem run_packageTree_append_inner : ∃ out₁ s₁ out₂ s₂,
    Ends (transform (.declaring innerMethods) {} (innerPackage [innerClass]) .root)
        { annotations := methodExports } out₁ s₁
      ∧ Ends (transform (.declaring innerMethods) {} (innerPackage [outerClass]) .root)
        { annotations := s₁.annotations } out₂ s₂
      ∧ Ends (transform (.declaring innerMethods) {} (innerPackage [innerClass, outerClass]) .root)
        { annotations := methodExports } (innerPackage (out₁.children ++ out₂.children))
        { s₂ with report := s₁.report ++ s₂.report } := by
  have hboth : (run (transform (.declaring innerMethods) {}
      (innerPackage [innerClass, outerClass]) .root) { annotations := methodExports }).1.isOk := by
    decide +kernel
  obtain ⟨out₁, s₁, hfirst⟩ : ∃ out₁ s₁,
      Ends (transform (.declaring innerMethods) {} (innerPackage [innerClass]) .root)
        { annotations := methodExports } out₁ s₁ := by
    refine exists_ends_of_isOk ?_
    decide +kernel
  have happend := run_packageTree_append innerMethods {} methodExports ⟨0, 60⟩ .noType (some 29)
    [innerClass] [outerClass] (by decide +kernel)
  unfold innerPackage at hboth hfirst ⊢
  rw [hfirst] at happend
  rcases hsecond : run (transform (.declaring innerMethods) {}
    (packageTree ⟨0, 60⟩ .noType (some 29) [outerClass]) .root) { annotations := s₁.annotations }
    with ⟨stop | out₂, s₂⟩
  · simp only [hsecond] at happend
    rw [show [innerClass, outerClass] = [innerClass] ++ [outerClass] from rfl, happend] at hboth
    cases hboth
  · simp only [hsecond] at happend
    exact ⟨out₁, s₁, out₂, s₂, hfirst, hsecond, happend⟩

end Pass

end Interop
