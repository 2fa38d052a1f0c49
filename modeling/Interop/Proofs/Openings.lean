import Interop.Proofs.Exports
import Interop.Proofs.Marking
import Interop.Proofs.Stages

/-!
# What a visit writes

Opening a node adds to what was written before, and what it adds can be read off a run on the
annotations alone (`opened`).  Annotations themselves change only if the declaration is accepted:

    annotations  ↦  the marker put once on the declared class,  if  accepts t scope
    report       ↦  report ++ what is reported on opening t
    waiting      ↦  waiting ++ the forwarders of t

Leaving a node adds reports on exports of locals, and takes the forwarders of a body.
-/

namespace Interop.Pass

variable (env : Env) (options : Options)

/-- The declaration extends the marker type, and nothing is wrong with it. -/
def accepts (t : Tree) (scope : Scope) : Bool :=
  (Rule.find? env t scope = some .jsAnyClass || Rule.find? env t scope = some .jsAnyDef)
    && (env.structuralProblems t scope).isEmpty

/-- Mark the class that the node declares, if it is accepted. -/
def markIn (t : Tree) (scope : Scope) (a : Annotations) : Annotations :=
  if accepts env t scope then a.prependOnce (env.table.typeSymbolOf t.symbol) (env.marker t.span)
  else a

/-- What opening a node comes to, when nothing was written before. -/
def opened (a : Annotations) (t : Tree) (scope : Scope) : Except Abort Unit × State :=
  run (opening env options t scope) { annotations := a }

/-! ## Lemmas -/

variable {env options} {a b : Annotations} {t : Tree} {scope : Scope} {s s' : State}

theorem accepts_iff : accepts env t scope
    ↔ (Rule.find? env t scope = some .jsAnyClass ∨ Rule.find? env t scope = some .jsAnyDef)
      ∧ env.structuralProblems t scope = [] := by
  simp [accepts]

theorem run_checkJsAny (hfind : Rule.find? env t scope = some .jsAnyClass
    ∨ Rule.find? env t scope = some .jsAnyDef) (s : State) :
    run (Rule.checkJsAny env t scope) s
      = (.ok (), { s with
          annotations := markIn env t scope s.annotations
          report := s.report ++ (env.structuralProblems t scope).map (·.diagnostic t.span) }) := by
  unfold Rule.checkJsAny markIn
  split
  next h =>
    rw [if_pos (accepts_iff.2 ⟨hfind, h⟩), h, run_mark]
    simp [Env.marker]
  next h =>
    rw [run_emit, if_neg fun haccepts => h (accepts_iff.1 haccepts).2]

theorem run_collectExports (method : SymbolRef) (s : State) :
    run (Rule.collectExports env method) s = match env.exportMembers? s.annotations method with
      | none => (.error .missingSymbol, s)
      | some (forwarders, report) =>
        (.ok (), { s with
          report := s.report ++ report
          waiting := s.waiting ++ forwarders.map (env.table.owner method, ·) }) := by
  unfold Rule.collectExports
  rw [run_bind, run_look]
  cases h : env.exportMembers? s.annotations method with
  | none =>
    simp only [h]
    rfl
  | some r =>
    simp only [h]
    rw [run_bind]
    simp

theorem markIn_of_rule {rule : Rule} (hfind : Rule.find? env t scope = some rule)
    (h₁ : rule ≠ .jsAnyClass) (h₂ : rule ≠ .jsAnyDef) : markIn env t scope a = a := by
  unfold markIn accepts
  rw [hfind]
  simp [h₁, h₂]

theorem run_discard_liftExcept {α : Type} (x : Except Abort α) (s : State) :
    run (discard (liftExcept x)) s = (x.map fun _ => (), s) := by
  cases x <;> rfl

/-- **Opening a node only adds to what was written.** -/
theorem run_opening (t : Tree) (scope : Scope) (s : State) :
    run (opening env options t scope) s
      = ((opened env options s.annotations t scope).1,
          { annotations := markIn env t scope s.annotations
            report := s.report ++ (opened env options s.annotations t scope).2.report
            waiting := s.waiting ++ (opened env options s.annotations t scope).2.waiting }) := by
  unfold opened opening
  cases hfind : Rule.find? env t scope with
  | none => simp [markIn, accepts, hfind]
  | some rule =>
    cases rule with
    | jsAnyClass | jsAnyDef =>
      simp only [Rule.enter]
      rw [run_checkJsAny (by simp [hfind]), run_checkJsAny (by simp [hfind])]
      simp
    | enumValueDef =>
      rw [markIn_of_rule hfind (by simp) (by simp)]
      simp only [run_discard_liftExcept, List.append_nil]
    | method =>
      rw [markIn_of_rule hfind (by simp) (by simp)]
      simp only [Rule.enter, run_collectExports]
      cases env.exportMembers? s.annotations t.symbol <;> simp
    | object =>
      rw [markIn_of_rule hfind (by simp) (by simp)]
      simp only [Rule.enter, run_bind, run_look, run_emit]
      simp
    | _ =>
      rw [markIn_of_rule hfind (by simp) (by simp)]
      simp [Rule.enter]

theorem opened_congr (options : Options) (h : env.exportsOf a = env.exportsOf b) (t : Tree)
    (scope : Scope) :
    (opened env options a t scope).1 = (opened env options b t scope).1
      ∧ (opened env options a t scope).2.report = (opened env options b t scope).2.report
      ∧ (opened env options a t scope).2.waiting = (opened env options b t scope).2.waiting := by
  unfold opened opening
  cases hfind : Rule.find? env t scope with
  | none => simp
  | some rule =>
    cases rule with
    | jsAnyClass | jsAnyDef =>
      simp only [Rule.enter]
      rw [run_checkJsAny (by simp [hfind]), run_checkJsAny (by simp [hfind])]
      simp
    | enumValueDef => simp [run_discard_liftExcept]
    | method =>
      simp only [Rule.enter, run_collectExports, Env.exportMembers?_congr h]
      cases env.exportMembers? b t.symbol <;> simp
    | object =>
      simp only [Rule.enter, run_bind, run_look, run_emit, Env.objectProblems_congr h]
      simp
    | _ => simp [Rule.enter]

/-- Only methods keep something for later. -/
theorem waiting_opened_of_ne_method (h : Rule.find? env t scope ≠ some .method) :
    (opened env options a t scope).2.waiting = [] := by
  unfold opened opening
  cases hfind : Rule.find? env t scope with
  | none => rfl
  | some rule =>
    cases rule with
    | method => exact absurd hfind h
    | jsAnyClass | jsAnyDef =>
      simp only [Rule.enter]
      rw [run_checkJsAny (by simp [hfind])]
    | enumValueDef => simp [run_discard_liftExcept]
    | object =>
      simp only [Rule.enter, run_bind, run_look, run_emit]
    | _ => simp [Rule.enter]

theorem opened_of_method (h : Rule.find? env t scope = some .method) :
    opened env options a t scope = run (Rule.collectExports env t.symbol) { annotations := a } := by
  unfold opened opening
  rw [h]
  rfl

theorem report_opened_of_isTypeToken (htoken : env.isTypeToken t) (options : Options)
    (a : Annotations) (scope : Scope) :
    (opened env options a t scope).2.report = tokenReport env options t := by
  simp [opened, opening, Rule.find?_eq_typeToken_iff.2 htoken]

/-- Nothing waits for having opened a type token, and nothing is marked. -/
theorem state_of_ends_opening_typeToken {s s' : State}
    (hfind : Rule.find? env t scope = some .typeToken)
    (h : Ends (opening env options t scope) s () s') :
    s' = { s with report := s.report ++ tokenReport env options t } := by
  unfold Ends opening at h
  rw [hfind] at h
  exact (Prod.mk.inj h).2.symm

/-- Only forwarders are kept for later. -/
theorem isForwarder_of_mem_waiting_opened {w : SymbolRef × Tree}
    (hw : w ∈ (opened env options a t scope).2.waiting) : IsForwarder w.2 := by
  by_cases hfind : Rule.find? env t scope = some .method
  · rw [opened_of_method hfind, run_collectExports] at hw
    split at hw
    next => cases hw
    next forwarders report h =>
      obtain ⟨f, hf, rfl⟩ := List.mem_map.1 (by simpa using hw)
      exact (Env.exportMembers?_eq_some h).1 f hf
  · rw [waiting_opened_of_ne_method hfind] at hw
    cases hw

/-! ## Leaving a node -/

/-- A body is left with the forwarders that waited for it. -/
theorem run_leave_of_template {parents body : List Tree} (ht : t.node = .template parents body)
    (s : State) :
    run (leave env t) s
      = (.ok { t with
            node := .template parents (body ++ (s.waiting.filter (·.1 = t.symbol)).map (·.2)) },
          { s with waiting := s.waiting.filter fun w => !(decide (w.1 = t.symbol)) }) := by
  unfold leave
  simp only [ht]
  rw [run_bind, run_release]
  rfl

/-- What is reported on leaving a node. -/
def closingReport (env : Env) (a : Annotations) (t : Tree) : Report :=
  if t.node.isMemberDef then env.localProblems a t.symbol else []

theorem isExport_of_mem_closingReport {d : Diagnostic} (hd : d ∈ closingReport env a t) :
    d.code.isExport := by
  unfold closingReport at hd
  split at hd
  next => exact Env.isExport_of_mem_localProblems hd
  next => cases hd

theorem run_leave_of_not_template (ht : ∀ parents body, t.node ≠ .template parents body)
    (s : State) :
    run (leave env t) s
      = (.ok t, { s with report := s.report ++ closingReport env s.annotations t }) := by
  unfold leave closingReport
  split
  next parents body h => exact absurd h (ht parents body)
  next =>
    split
    next => rfl
    next => simp

theorem ends_leave {out : Tree} (h : Ends (leave env t) s out s') :
    (∃ parents body, t.node = .template parents body
        ∧ out = { t with
            node := .template parents (body ++ (s.waiting.filter (·.1 = t.symbol)).map (·.2)) }
        ∧ s' = { s with waiting := s.waiting.filter fun w => !(decide (w.1 = t.symbol)) })
    ∨ ((∀ parents body, t.node ≠ .template parents body) ∧ out = t
        ∧ s' = { s with report := s.report ++ closingReport env s.annotations t }) := by
  by_cases ht : ∃ parents body, t.node = .template parents body
  · obtain ⟨parents, body, ht⟩ := ht
    unfold Ends at h
    rw [run_leave_of_template ht] at h
    cases h
    exact .inl ⟨parents, body, ht, rfl, rfl⟩
  · have ht : ∀ parents body, t.node ≠ .template parents body :=
      fun parents body h => ht ⟨parents, body, h⟩
    unfold Ends at h
    rw [run_leave_of_not_template ht] at h
    cases h
    exact .inr ⟨ht, rfl, rfl⟩

end Interop.Pass
