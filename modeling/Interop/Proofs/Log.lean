import Interop.Proofs.Openings
import Interop.Proofs.Rewrites
import Interop.Proofs.Sharing
import Interop.Proofs.Visits

/-!
# The log of a traversal

What a traversal writes can be listed beforehand.  The log of a tree has the marks and the reports
of all nodes in the order in which they come,

    log t scope  =  opening t  ++  log of each part  ++  closing t

and a run writes its log up to the place where it breaks off, or all of it (`writes_transform`).
Of what was written before only the exports asked for count.  Marks ask for none, so the log is the
same with other units beside it that put on theirs.
-/

namespace Interop.Pass

/-- What a traversal writes for others to see. -/
inductive Event where
  /-- the declared class gets the marker of a declaration at `span`, unless it has one -/
  | mark (symbol : SymbolRef) (span : Span)
  | report (d : Diagnostic)
deriving DecidableEq, Inhabited

variable (env : Env) (options : Options)

/-! ## Algorithm -/

def Event.mark? : Event → Option (SymbolRef × Span)
  | mark symbol span => some (symbol, span)
  | report _ => none

def Event.report? : Event → Option Diagnostic
  | mark _ _ => none
  | report d => some d

/-- The marks among the events. -/
def marks (es : List Event) : List (SymbolRef × Span) := es.filterMap Event.mark?

/-- The reports among the events. -/
def reports (es : List Event) : Report := es.filterMap Event.report?

/-- What is written on opening a node, with the annotations `a` at the start. -/
def openingLog (a : Annotations) (t : Tree) (scope : Scope) : List Event :=
  (if accepts env t scope then [.mark (env.table.typeSymbolOf t.symbol) t.span] else [])
    ++ (opened env options a t scope).2.report.map .report

/-- Everything that is written from opening a node to leaving it. -/
def log (a : Annotations) (t : Tree) (scope : Scope) : List Event :=
  openingLog env options a t scope
    ++ (parts env t scope).attach.flatMap (fun ⟨c, _⟩ => log a c (inner env t scope))
    ++ (closingReport env a t).map .report
termination_by t.weight
decreasing_by exact weight_lt_of_mem_parts ‹_›

/-- The state after the events, with `waiting` for what waits. -/
def written (a : Annotations) (report : Report) (es : List Event)
    (waiting : List (SymbolRef × Tree)) : State :=
  { annotations := env.markAll (marks es) a, report := report ++ reports es, waiting }

/-- The step writes a part of `es` from its start on, and all if it ends.  What it does is the same
whatever was reported before, and whatever others do to the annotations in between, as long as these
ask for the same exports as `a₀`. -/
def Writes {α : Type} (a₀ : Annotations) (m : PassM α) (es : List Event) : Prop :=
  ∀ waiting, ∃ result done waiting', done <+: es ∧ (∀ x, result = .ok x → done = es)
    ∧ ∀ report, (script m ⟨report, waiting⟩).ComesTo env a₀
        (result, ⟨report ++ reports done, waiting'⟩) (marks done)

/-! ## Lemmas -/

variable {env options} {a₀ a : Annotations} {t : Tree} {scope : Scope}

theorem log_eq (a : Annotations) (t : Tree) (scope : Scope) :
    log env options a t scope
      = openingLog env options a t scope
        ++ (parts env t scope).flatMap (log env options a · (inner env t scope))
        ++ (closingReport env a t).map .report := by
  rw [log]
  simp

@[simp] theorem reports_map_report (r : Report) : reports (r.map .report) = r := by
  unfold reports
  rw [List.filterMap_map]
  exact List.filterMap_some

@[simp] theorem marks_map_report (r : Report) : marks (r.map .report) = [] := by
  simp [marks, Event.mark?]

@[simp] theorem reports_append (es fs : List Event) :
    reports (es ++ fs) = reports es ++ reports fs :=
  List.filterMap_append

@[simp] theorem marks_append (es fs : List Event) :
    marks (es ++ fs) = marks es ++ marks fs :=
  List.filterMap_append

@[simp] theorem written_nil (a : Annotations) (report : Report) (w : List (SymbolRef × Tree)) :
    written env a report [] w = { annotations := a, report, waiting := w } := by
  simp [written, marks, reports, Env.markAll]

/-! ## Steps -/

namespace Writes

variable {α β : Type} {es fs : List Event}

/-- A step that no one interferes with. -/
theorem run_eq (henv : env.Installed) {m : PassM α} (hm : Writes env a₀ m es)
    (waiting : List (SymbolRef × Tree)) :
    ∃ result done waiting', done <+: es ∧ (∀ x, result = .ok x → done = es)
      ∧ ∀ a report, env.exportsOf a = env.exportsOf a₀ →
          run m ⟨a, report, waiting⟩ = (result, written env a report done waiting') := by
  obtain ⟨result, done, waiting', hstart, hdone, hcomes⟩ := hm waiting
  refine ⟨result, done, waiting', hstart, hdone, fun a report ha => ?_⟩
  unfold run
  rw [(hcomes report).run_eq henv ha]
  rfl

theorem pure (x : α) : Writes env a₀ (pure x) [] :=
  fun waiting => ⟨.ok x, [], waiting, List.prefix_rfl, fun _ _ => rfl, fun report => by
    rw [show reports [] = [] from rfl, List.append_nil]
    exact .done _⟩

theorem error (e : Abort) (es : List Event) : Writes env a₀ (liftExcept (.error e) : PassM α) es :=
  fun waiting => ⟨.error e, [], waiting, List.nil_prefix, fun _ h => (nomatch h), fun report => by
    rw [show reports [] = [] from rfl, List.append_nil]
    exact .done _⟩

/-- One step after the other writes one log after the other. -/
theorem bind {m : PassM α} {f : α → PassM β} (hm : Writes env a₀ m es)
    (hf : ∀ x, Writes env a₀ (f x) fs) : Writes env a₀ (m >>= f) (es ++ fs) := by
  intro waiting
  obtain ⟨result, done, waiting', hstart, hdone, hcomes⟩ := hm waiting
  cases result with
  | error e =>
    refine ⟨.error e, done, waiting', hstart.trans (List.prefix_append _ _), fun _ h => (nomatch h),
      fun report => ?_⟩
    rw [script_bind, ← List.append_nil (marks done)]
    exact (hcomes report).bind (.done _)
  | ok x =>
    obtain rfl := hdone x rfl
    obtain ⟨result', done', waiting'', hstart', hdone', hcomes'⟩ := hf x waiting'
    refine ⟨result', done ++ done', waiting'', (List.prefix_append_right_inj done).2 hstart',
      fun y hy => by rw [hdone' y hy], fun report => ?_⟩
    rw [script_bind, reports_append, marks_append, ← List.append_assoc]
    exact (hcomes report).bind (hcomes' _)

theorem mapM {f : α → PassM β} {log : α → List Event} {as : List α}
    (h : ∀ a ∈ as, Writes env a₀ (f a) (log a)) : Writes env a₀ (as.mapM f) (as.flatMap log) := by
  induction as with
  | nil => exact Writes.pure _
  | cons a as ih =>
    rw [List.mapM_cons, List.flatMap_cons]
    refine (h a (.head _)).bind fun b => ?_
    rw [← List.append_nil (as.flatMap log)]
    exact (ih fun a' ha' => h a' (.tail _ ha')).bind fun bs => Writes.pure _

end Writes

/-- The mark of a declaration. -/
def markOf (env : Env) (t : Tree) : SymbolRef × Span := (env.table.typeSymbolOf t.symbol, t.span)

/-- A step that looks at the annotations first and goes by the exports that they ask for. -/
theorem comesTo_look {α : Type} {f : Annotations → PassM α} {n : Notes}
    {out : Except Abort α × Notes} {ms : List (SymbolRef × Span)}
    (hf : ∀ a, env.exportsOf a = env.exportsOf a₀ → f a = f a₀)
    (h : (script (f a₀) n).ComesTo env a₀ out ms) :
    (script (look >>= f) n).ComesTo env a₀ out ms := by
  rw [script_bind]
  refine .look fun a ha => ?_
  show (script (f a) n).ComesTo env a₀ out ms
  rwa [hf a ha]

/-- A declaration that extends the marker type is marked or reported. -/
theorem comesTo_checkJsAny (a₀ : Annotations)
    (hfind : Rule.find? env t scope = some .jsAnyClass
      ∨ Rule.find? env t scope = some .jsAnyDef) (n : Notes) :
    (script (Rule.checkJsAny env t scope) n).ComesTo env a₀
      ((run (Rule.checkJsAny env t scope) { annotations := a₀ }).1,
        ⟨n.report ++ (run (Rule.checkJsAny env t scope) { annotations := a₀ }).2.report,
          n.waiting ++ (run (Rule.checkJsAny env t scope) { annotations := a₀ }).2.waiting⟩)
      (if accepts env t scope then [markOf env t] else []) := by
  rw [run_checkJsAny hfind]
  cases hproblems : env.structuralProblems t scope with
  | nil =>
    have haccepts : accepts env t scope := accepts_iff.2 ⟨hfind, hproblems⟩
    rw [if_pos haccepts]
    unfold Rule.checkJsAny
    simp only [hproblems, List.map_nil, List.append_nil]
    exact .mark (.done _)
  | cons p ps =>
    have haccepts : ¬ accepts env t scope := fun h => by
      rw [(accepts_iff.1 h).2] at hproblems
      cases hproblems
    rw [if_neg haccepts]
    unfold Rule.checkJsAny
    simp only [hproblems, List.nil_append, List.append_nil]
    exact .done _

/-- What opening a node does with the annotations: at most one mark, or one look for exports. -/
theorem comesTo_opening (env : Env) (options : Options) (a₀ : Annotations) (t : Tree)
    (scope : Scope) (n : Notes) :
    (script (opening env options t scope) n).ComesTo env a₀
      ((opened env options a₀ t scope).1,
        ⟨n.report ++ (opened env options a₀ t scope).2.report,
          n.waiting ++ (opened env options a₀ t scope).2.waiting⟩)
      (if accepts env t scope then [markOf env t] else []) := by
  by_cases hjs : Rule.find? env t scope = some .jsAnyClass
      ∨ Rule.find? env t scope = some .jsAnyDef
  · have hopening : opening env options t scope = Rule.checkJsAny env t scope := by
      unfold opening
      rcases hjs with hfind | hfind
      all_goals
        rw [hfind]
        rfl
    unfold opened
    rw [hopening]
    exact comesTo_checkJsAny a₀ hjs n
  · rw [if_neg fun haccepts => hjs (accepts_iff.1 haccepts).1]
    unfold opened opening
    cases hfind : Rule.find? env t scope with
    | none =>
      simp only [run_pure, List.append_nil]
      exact .done _
    | some rule =>
      cases rule with
      | jsAnyClass => exact absurd (.inl hfind) hjs
      | jsAnyDef => exact absurd (.inr hfind) hjs
      | enumValueDef =>
        simp only [run_discard_liftExcept, List.append_nil]
        cases nameValueDef env t <;> exact .done _
      | method =>
        simp only [Rule.enter, run_collectExports]
        refine comesTo_look (fun a ha => by rw [Env.exportMembers?_congr ha]) ?_
        cases env.exportMembers? a₀ t.symbol with
        | none =>
          simp only [List.append_nil]
          exact .done _
        | some r =>
          simp only [List.nil_append]
          exact .done _
      | object =>
        simp only [Rule.enter]
        refine comesTo_look (fun a ha => by rw [Env.objectProblems_congr ha]) ?_
        simp only [run_bind, run_look, run_emit, List.append_nil, List.nil_append]
        exact .done _
      | _ =>
        simp only [Rule.enter, run_emit, run_pure, List.nil_append, List.append_nil]
        exact .done _

theorem writes_opening (t : Tree) (scope : Scope) :
    Writes env a₀ (opening env options t scope) (openingLog env options a₀ t scope) := by
  intro waiting
  refine ⟨(opened env options a₀ t scope).1, openingLog env options a₀ t scope,
    waiting ++ (opened env options a₀ t scope).2.waiting, List.prefix_rfl, fun _ _ => rfl,
    fun report => ?_⟩
  have h := comesTo_opening env options a₀ t scope ⟨report, waiting⟩
  unfold openingLog
  split
  next haccepts =>
    rw [if_pos haccepts] at h
    rw [marks_append, reports_append, marks_map_report, reports_map_report]
    exact h
  next haccepts =>
    rw [if_neg haccepts] at h
    rw [List.nil_append, marks_map_report, reports_map_report]
    exact h

theorem writes_leave (t : Tree) :
    Writes env a₀ (leave env t) ((closingReport env a₀ t).map .report) := by
  intro waiting
  by_cases ht : ∃ parents body, t.node = .template parents body
  · obtain ⟨parents, body, ht⟩ := ht
    have hclosing : closingReport env a₀ t = [] := by
      unfold closingReport
      rw [ht]
      rfl
    refine ⟨.ok { t with
        node := .template parents (body ++ (waiting.filter (·.1 = t.symbol)).map (·.2)) }, [],
      waiting.filter fun w => !(decide (w.1 = t.symbol)), List.nil_prefix,
      fun _ _ => by rw [hclosing]; rfl, fun report => ?_⟩
    unfold leave
    simp only [ht]
    rw [script_bind, script_release, show reports [] = [] from rfl, List.append_nil]
    exact .done _
  · have ht : ∀ parents body, t.node ≠ .template parents body :=
      fun parents body h => ht ⟨parents, body, h⟩
    refine ⟨.ok t, _, waiting, List.prefix_rfl, fun _ _ => rfl, fun report => ?_⟩
    rw [marks_map_report, reports_map_report]
    unfold leave closingReport
    split
    next parents body hnode => exact absurd hnode (ht parents body)
    next =>
      split
      next =>
        refine comesTo_look (fun a ha => by rw [Env.localProblems_congr ha]) ?_
        exact .done _
      next =>
        rw [List.append_nil]
        exact .done _

/-- What is reported on leaving a node is the same for the tree in its place. -/
theorem closingReport_of_rebuild (henv : env.Installed) {cs : List Tree} {t' : Tree}
    (h : rebuild env options t scope cs = .ok t') :
    closingReport env a t' = closingReport env a t := by
  have hnone : ∀ u : Tree, u.node.isMemberDef = false → closingReport env a u = [] := fun u hu => by
    simp [closingReport, hu]
  rcases stages_cases env t scope with
    hkept | ⟨hfind, callee, arg, ht⟩ | ⟨hfind, hvalue⟩
      | ⟨hfind, callee, args, receiver, name, ht, hcallee⟩ | ⟨hfind, receiver, name, ht⟩
  · rw [rebuild_of_kept hkept] at h
    cases h
    simp [closingReport, Tree.withChildren]
  · rw [rebuild_of_typeToken hfind] at h
    rw [hnone t (by rw [ht]; rfl)]
    rcases (tokenResult_eq_ok_iff ht).1 h with ⟨-, rfl⟩ | ⟨-, -, rfl⟩
    · exact hnone _ rfl
    · exact hnone _ rfl
  · rw [rebuild_of_enumValueDef hfind] at h
    cases h
    obtain ⟨rhs, hnamed⟩ := named_of_isUnnamedValueDef hvalue
    obtain ⟨_, _, _, ht, -⟩ := Env.isUnnamedValueDef_iff.1 hvalue
    simp only [closingReport, Tree.withChildren, hnamed, ht, Node.isMemberDef_withChildren]
    rfl
  · rw [rebuild_of_dynamicApply hfind ht] at h
    obtain ⟨_, _, _, _, _, rfl⟩ := (applyDynamic_eq_ok_iff henv).1 h
    rw [hnone t (by rw [ht]; rfl)]
    exact hnone _ rfl
  · rw [rebuild_of_dynamicSelect hfind] at h
    obtain ⟨_, _, _, rfl⟩ := (selectDynamic_eq_ok_iff henv).1 h
    rw [hnone t (by rw [ht]; rfl)]
    exact hnone _ rfl

/-- **What a traversal writes.** -/
theorem writes_transform (henv : env.Installed) (options : Options) (a₀ : Annotations) (t : Tree)
    (scope : Scope) :
    Writes env a₀ (transform env options t scope) (log env options a₀ t scope) := by
  induction t, scope using parts_induction env with
  | h t scope ih =>
    rw [transform_eq, log_eq, List.append_assoc]
    refine Writes.bind (writes_opening t scope) fun _ => ?_
    refine Writes.bind (Writes.mapM fun c hc => ih c hc) fun cs => ?_
    cases hrebuild : rebuild env options t scope cs with
    | error e => exact Writes.error e _
    | ok t' =>
      rw [← closingReport_of_rebuild henv hrebuild]
      exact writes_leave t'

/-! ## What a log has -/

theorem marks_log (a : Annotations) (t : Tree) (scope : Scope) :
    marks (log env options a t scope)
      = ((visits env t scope).filter fun v => accepts env v.1 v.2).map fun v => markOf env v.1 := by
  induction t, scope using parts_induction env with
  | h t scope ih =>
    have hparts : marks ((parts env t scope).flatMap (log env options a · (inner env t scope)))
        = (((parts env t scope).flatMap (visits env · (inner env t scope))).filter
            fun v => accepts env v.1 v.2).map fun v => markOf env v.1 := by
      unfold marks at ih ⊢
      rw [List.filterMap_flatMap, List.filter_flatMap, List.map_flatMap]
      exact List.flatMap_congr ih
    rw [log_eq, visits_eq, marks_append, marks_append, hparts, marks_map_report, List.append_nil]
    unfold openingLog
    rw [marks_append, marks_map_report, List.append_nil, List.filter_cons]
    by_cases h : accepts env t scope
    · rw [if_pos h, if_pos h]
      rfl
    · rw [if_neg h, if_neg h]
      rfl

/-- What is reported on opening a node. -/
theorem reports_openingLog (options : Options) (a : Annotations) (t : Tree) (scope : Scope) :
    reports (openingLog env options a t scope) = (opened env options a t scope).2.report := by
  unfold openingLog
  rw [reports_append, reports_map_report]
  split
  next => rfl
  next => rfl

/-- The reports of a node, of its parts, and of the node again when it is left. -/
theorem reports_log_eq (options : Options) (a : Annotations) (t : Tree) (scope : Scope) :
    reports (log env options a t scope)
      = (opened env options a t scope).2.report
        ++ (parts env t scope).flatMap
            (fun c => reports (log env options a c (inner env t scope)))
        ++ closingReport env a t := by
  rw [log_eq, reports_append, reports_append, reports_map_report, reports_openingLog]
  unfold reports
  rw [List.filterMap_flatMap]

theorem mem_reports_log {d : Diagnostic} :
    d ∈ reports (log env options a t scope) ↔ ∃ v ∈ visits env t scope,
      d ∈ (opened env options a v.1 v.2).2.report ∨ d ∈ closingReport env a v.1 := by
  induction t, scope using parts_induction env with
  | h t scope ih =>
    rw [reports_log_eq, visits_eq, List.mem_append, List.mem_append, List.mem_flatMap]
    constructor
    · rintro ((h | ⟨c, hc, h⟩) | h)
      · exact ⟨_, .head _, .inl h⟩
      · obtain ⟨v, hv, h⟩ := (ih c hc).1 h
        exact ⟨v, .tail _ (List.mem_flatMap.2 ⟨c, hc, hv⟩), h⟩
      · exact ⟨_, .head _, .inr h⟩
    · rintro ⟨v, hv, h⟩
      rcases List.mem_cons.1 hv with rfl | hv
      · exact h.imp .inl id
      · obtain ⟨c, hc, hv⟩ := List.mem_flatMap.1 hv
        exact .inl (.inr ⟨c, hc, (ih c hc).2 ⟨v, hv, h⟩⟩)

/-! ## Declarations -/

theorem isImplDef_of_accepts (h : accepts env t scope) : t.node.isImplDef := by
  rcases (accepts_iff.1 h).1 with hfind | hfind
  · exact Rule.isImplDef_of_find?_eq_some hfind (.inl rfl)
  · exact Rule.isImplDef_of_find?_eq_some hfind (.inr (.inr rfl))

theorem isJsAny_of_accepts (h : accepts env t scope) : env.isJsAny t.symbol := by
  rcases (accepts_iff.1 h).1 with hfind | hfind
  all_goals
    have happ := Rule.applies_of_find?_eq_some hfind
    simp only [Rule.applies, Bool.and_eq_true] at happ
    exact happ.2

/-- The declarations of classes and objects outside type tokens. -/
def declarations (env : Env) (t : Tree) : List Tree := (env.live t).filter (·.node.isImplDef)

/-- The pass comes to each declaration, in order. -/
theorem filter_visits_isImplDef (env : Env) (t : Tree) (scope : Scope) :
    ((visits env t scope).map (·.1)).filter (·.node.isImplDef) = declarations env t :=
  filter_visits isImplDef_of_isTypable env t scope

/-- What is declared is marked, or nothing is. -/
theorem mem_declarations_of_mem_marks {m : SymbolRef × Span}
    (hm : m ∈ marks (log env options a t scope)) : ∃ d ∈ declarations env t, m = markOf env d := by
  rw [marks_log, List.mem_map] at hm
  obtain ⟨v, hv, rfl⟩ := hm
  obtain ⟨hv, haccepts⟩ := List.mem_filter.1 hv
  refine ⟨v.1, ?_, rfl⟩
  rw [← filter_visits_isImplDef env t scope, List.mem_filter]
  exact ⟨List.mem_map_of_mem hv, isImplDef_of_accepts haccepts⟩

/-- **What a unit writes.**  The run of a unit is the same on all annotations that ask for the same
exports, and what it puts into them is its log up to some place. -/
theorem run_transform (henv : env.Installed) (options : Options) (a₀ : Annotations) (t : Tree) :
    ∃ result done, done <+: log env options a₀ t .root
      ∧ (∀ out, result = .ok out → done = log env options a₀ t .root)
      ∧ ∀ a, env.exportsOf a = env.exportsOf a₀ → ∃ waiting,
          run (transform env options t .root) { annotations := a }
            = (result, written env a [] done waiting) := by
  obtain ⟨result, done, waiting, hstart, hdone, hrun⟩ :=
    (writes_transform henv options a₀ t .root).run_eq henv []
  exact ⟨result, done, hstart, hdone, fun a ha => ⟨waiting, hrun a [] ha⟩⟩

end Interop.Pass
