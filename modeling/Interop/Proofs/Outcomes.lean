import Mathlib.Algebra.GroupWithZero.Nat
import Interop.Proofs.Independence
import Interop.Proofs.Verdicts

/-!
# What comes of units

Whatever the pass reports on a unit points at one place: the report has one label, which is primary
and repeats the message, and it is a warning exactly if its code is that of a warning
(`Diagnostic.IsRegular`).  Defects are not reported but end the unit, and an internal error is all
that comes of it:

    a tree      with regular reports
    no tree     with one report, an internal error

So the errors and the warnings of a batch add up to its reports, and each unit without a tree is
among the errors.
-/

namespace Interop

/-! ## Algorithm -/

/-- The severity goes by the code, which is not the one of defects, and one primary label repeats
the message. -/
structure Diagnostic.IsRegular (d : Diagnostic) : Prop where
  code_ne : d.code ≠ .internal
  severity_iff : d.severity = .warning ↔ d.code.isWarning
  labels_eq : ∃ span, d.labels = [⟨span, d.message, true⟩]

/-- A unit has a tree and regular reports, or no tree and an internal error. -/
def Batch.Outcome.WellFormed (o : Batch.Outcome) : Prop :=
  match o.tree? with
  | some _ => ∀ d ∈ o.report, d.IsRegular
  | none => ∃ d, o.report = [d] ∧ d.code = .internal ∧ d.severity = .error

/-! ## Regular reports -/

namespace Diagnostic

theorem isRegular_error {code : Code} (h : code.isStructure ∨ code.isTypeToken ∨ code.isExport)
    (span : Span) (message : String) : (point .error code span message).IsRegular := by
  have hcode : code ≠ .internal ∧ code.isWarning = false := by
    cases code <;> simp [Code.isStructure, Code.isTypeToken, Code.isExport, Code.isWarning] at h ⊢
  refine ⟨hcode.1, ?_, span, rfl⟩
  show Severity.error = .warning ↔ code.isWarning
  simp [hcode.2]

theorem isRegular_warning {code : Code} (h : code.isWarning) (span : Span) (message : String) :
    (point .warning code span message).IsRegular := by
  refine ⟨?_, iff_of_true rfl h, span, rfl⟩
  rintro rfl
  cases h

end Diagnostic

namespace Env

open Diagnostic (Problem)

variable {env : Env} {a : Annotations} {symbol : SymbolRef} {d : Diagnostic}

theorem exists_problem_of_exportMember? {s : Symbol} {e : Export} {r : List Tree × Report}
    (h : env.exportMember? symbol s e = some r) (hd : d ∈ r.2) :
    ∃ (p : Problem) (span : Span), d = p.diagnostic span := by
  unfold exportMember? at h
  split at h
  next =>
    cases h
    exact ⟨_, _, List.mem_singleton.1 hd⟩
  next =>
    split at h
    next =>
      obtain ⟨c, -, h⟩ := Option.bind_eq_some_iff.1 h
      cases h
      obtain ⟨p, -, rfl⟩ := List.mem_map.1 hd
      exact ⟨p, _, rfl⟩
    next =>
      cases h
      cases hd

theorem exists_problem_of_exportMembers? {r : List Tree × Report}
    (h : env.exportMembers? a symbol = some r) (hd : d ∈ r.2) :
    ∃ (p : Problem) (span : Span), d = p.diagnostic span := by
  unfold exportMembers? at h
  split at h
  next =>
    split at h
    next =>
      cases h
      cases hd
    next =>
      split at h
      next =>
        cases h
        exact ⟨_, _, List.mem_singleton.1 hd⟩
      next =>
        obtain ⟨parts, hparts, h⟩ := Option.bind_eq_some_iff.1 h
        cases h
        obtain ⟨part, hpart, hd⟩ := List.mem_flatMap.1 hd
        obtain ⟨e, -, he⟩ := exists_of_mem_mapM hparts hpart
        exact exists_problem_of_exportMember? he hd
  next =>
    cases h
    cases hd

/-- What is wrong with the exports of a method. -/
theorem isRegular_of_exportMembers? {r : List Tree × Report}
    (h : env.exportMembers? a symbol = some r) (hd : d ∈ r.2) : d.IsRegular := by
  have hcode := (exportMembers?_eq_some h).2 d hd
  obtain ⟨p, span, rfl⟩ := exists_problem_of_exportMembers? h hd
  exact Diagnostic.isRegular_error (.inr (.inr hcode)) span p.message

theorem isRegular_of_mem_objectProblems (hd : d ∈ env.objectProblems a symbol) : d.IsRegular := by
  have hcode := isExport_of_mem_objectProblems hd
  unfold objectProblems at hd
  split at hd
  next => cases hd
  next problem _ =>
    obtain ⟨e, -, rfl⟩ := List.mem_map.1 hd
    exact Diagnostic.isRegular_error (.inr (.inr hcode)) e.span problem.message

theorem isRegular_of_mem_localProblems (hd : d ∈ env.localProblems a symbol) : d.IsRegular := by
  have hcode := isExport_of_mem_localProblems hd
  unfold localProblems at hd
  split at hd
  next => cases hd
  next =>
    simp only at hd
    split at hd
    next => cases hd
    next =>
      obtain ⟨e, -, rfl⟩ := List.mem_map.1 hd
      exact Diagnostic.isRegular_error (.inr (.inr hcode)) e.span _

end Env

namespace Pass

variable {env : Env} {options : Options} {a : Annotations} {t : Tree} {scope : Scope}
  {d : Diagnostic}

theorem isRegular_of_mem_tokenReport (hd : d ∈ tokenReport env options t) : d.IsRegular := by
  have hcode := isTypeToken_of_mem_tokenReport hd
  unfold tokenReport at hd
  split at hd
  next callee arg _ =>
    rw [Option.mem_toList] at hd
    unfold tokenProblem? at hd
    split at hd
    next =>
      cases hd
      exact Diagnostic.isRegular_error (.inr (.inl hcode)) _ _
    next =>
      split at hd
      next =>
        cases hd
        exact Diagnostic.isRegular_error (.inr (.inl hcode)) _ _
      next => cases hd
  next => cases hd

/-- **What any rule reports on entering a node is regular.** -/
theorem isRegular_of_mem_report_opened (hd : d ∈ (opened env options a t scope).2.report) :
    d.IsRegular := by
  cases hfind : Rule.find? env t scope with
  | none => simp [opened, opening, hfind] at hd
  | some rule =>
    cases rule with
    | jsAnyClass | jsAnyDef =>
      rw [report_opened_of_jsAny (by simp [hfind]), List.mem_map] at hd
      obtain ⟨p, hp, rfl⟩ := hd
      exact Diagnostic.isRegular_error (.inl (isStructure_of_mem_structuralProblems hp)) _ _
    | innerDef =>
      simp only [opened, opening, hfind, Rule.enter, run_emit, List.nil_append,
        List.mem_singleton] at hd
      rw [hd]
      exact Diagnostic.isRegular_error (.inl rfl) _ _
    | unnamedCall | nullNamedCall =>
      simp only [opened, opening, hfind, Rule.enter, run_emit, List.nil_append,
        List.mem_singleton] at hd
      rw [hd]
      exact Diagnostic.isRegular_warning rfl _ _
    | typeToken =>
      rw [report_opened_of_isTypeToken (Rule.find?_eq_typeToken_iff.1 hfind)] at hd
      exact isRegular_of_mem_tokenReport hd
    | method =>
      rw [opened_of_method hfind, run_collectExports] at hd
      split at hd
      next => cases hd
      next forwarders report h =>
        exact Env.isRegular_of_exportMembers? h (by simpa using hd)
    | object =>
      simp only [opened, opening, hfind, Rule.enter, run_bind, run_look, run_emit,
        List.nil_append] at hd
      exact Env.isRegular_of_mem_objectProblems hd
    | enumValueDef => simp [opened, opening, hfind, run_discard_liftExcept] at hd
    | _ => simp [opened, opening, hfind, Rule.enter] at hd

theorem isRegular_of_mem_closingReport (hd : d ∈ closingReport env a t) : d.IsRegular := by
  unfold closingReport at hd
  split at hd
  next => exact Env.isRegular_of_mem_localProblems hd
  next => cases hd

/-- A unit that is prepared has regular reports only. -/
theorem isRegular_of_prepare_eq_ok (henv : env.Installed) {prepared : Prepared}
    (hok : (prepare env options t a).1 = .ok prepared) : ∀ d ∈ prepared.report, d.IsRegular := by
  intro d hd
  rw [report_of_prepare_eq_ok henv hok] at hd
  obtain ⟨v, -, hd | hd⟩ := mem_reports_log.1 hd
  · exact isRegular_of_mem_report_opened hd
  · exact isRegular_of_mem_closingReport hd

end Pass

/-! ## Batches -/

namespace Batch

variable {env : Env} {settings : Settings} {options : Options} {a : Annotations}
  {outcomes : List Outcome}

theorem fst_prepareOne (env : Env) (options : Options) (unit : Source) (a : Annotations) :
    (prepareOne env options unit a).1 = match (prepare env options unit.tree a).1 with
      | .ok prepared => .ok ⟨unit.name, some prepared.tree, prepared.report⟩
      | .error (.defect d) => .ok ⟨unit.name, none, [d.diagnostic]⟩
      | .error .missingSymbol => .error .missingSymbol
      | .error (.leftovers found) => .error (.leftovers found) := by
  unfold prepareOne preparingOne
  rw [Script.run_bind]
  rfl

theorem wellFormed_of_prepareOne_eq_ok (henv : env.Installed) {unit : Source} {o : Outcome}
    (h : (prepareOne env options unit a).1 = .ok o) : o.name = unit.name ∧ o.WellFormed := by
  rw [fst_prepareOne] at h
  cases hprepare : (prepare env options unit.tree a).1 with
  | ok prepared =>
    simp only [hprepare] at h
    cases h
    exact ⟨rfl, Pass.isRegular_of_prepare_eq_ok henv hprepare⟩
  | error stop =>
    simp only [hprepare] at h
    cases stop with
    | defect d =>
      cases h
      exact ⟨rfl, d.diagnostic, rfl, rfl, rfl⟩
    | missingSymbol => cases h
    | leftovers found => cases h

/-- The outcomes of a batch are those of its units alone. -/
theorem forall₂_of_prepareAll_eq_ok (henv : env.Installed) {units : List Source}
    {pool? : Option Pool} (h : (prepareAll env settings units a pool?).1 = .ok outcomes) :
    List.Forall₂ (fun u o => (prepareOne env settings.options u a).1 = .ok o) units outcomes := by
  choose ms _ hms using fun u => exists_comesTo henv settings.options a u
  rw [(prepareAll_eq henv settings hms units pool?).1] at h
  exact mapM_eq_ok_iff.1 h

/-! ## Summaries -/

/-- Every report is an error or a warning. -/
theorem errorCount_add_warningCount (outcomes : List Outcome) :
    errorCount outcomes + warningCount outcomes = (report outcomes).length := by
  unfold errorCount warningCount Report.errorCount Report.warningCount
  rw [List.length_eq_countP_add_countP (·.isError) (l := report outcomes)]
  congr 2
  funext d
  cases d.isError <;> rfl

/-- Errors are counted unit by unit. -/
theorem errorCount_eq_sum (outcomes : List Outcome) :
    errorCount outcomes = (outcomes.map (·.report.errorCount)).sum := by
  unfold errorCount Report.errorCount report
  rw [List.countP_flatMap]
  rfl

theorem hasErrors_iff (outcomes : List Outcome) :
    hasErrors outcomes ↔ ∃ o ∈ outcomes, ∃ d ∈ o.report, d.severity = .error := by
  unfold hasErrors Report.hasErrors Report.errorCount report
  rw [decide_eq_true_iff, gt_iff_lt, List.countP_pos_iff]
  simp only [List.mem_flatMap, Diagnostic.isError, decide_eq_true_eq]
  constructor
  · rintro ⟨d, ⟨o, ho, hd⟩, herror⟩
    exact ⟨o, ho, d, hd, herror⟩
  · rintro ⟨o, ho, d, hd, herror⟩
    exact ⟨d, ⟨o, ho, hd⟩, herror⟩

/-- A unit without a tree is one error. -/
theorem errorCount_of_tree?_eq_none {o : Outcome} (h : o.WellFormed) (ho : o.tree? = none) :
    o.report.errorCount = 1 := by
  unfold Outcome.WellFormed at h
  rw [ho] at h
  obtain ⟨d, hreport, -, herror⟩ := h
  rw [hreport, Report.errorCount]
  simp [Diagnostic.isError, herror]

theorem countP_le_errorCount (h : ∀ o ∈ outcomes, o.WellFormed) :
    outcomes.countP (·.tree?.isNone) ≤ errorCount outcomes := by
  rw [errorCount_eq_sum]
  induction outcomes with
  | nil => exact Nat.le_refl 0
  | cons o outcomes ih =>
    have hrest := ih fun o ho => h o (.tail _ ho)
    rw [List.countP_cons, List.map_cons, List.sum_cons]
    cases ho : o.tree? with
    | some t =>
      simp only [Option.isNone_some, Bool.false_eq_true, if_false]
      omega
    | none =>
      rw [errorCount_of_tree?_eq_none (h o (.head _)) ho]
      simp only [Option.isNone_none, if_true]
      omega

/-! ## Top theorem -/

/-- **Outcomes are well formed.**  If no unit breaks off alone there is an outcome for each, with or
without a pool, which has a tree and regular reports, or no tree and only an internal error.  Errors and warnings add up
to all reports, there are errors exactly if some unit has one, and a unit without a tree counts as
one. -/
theorem prepareAll_wellFormed (ds : List Declaration) (settings : Settings) (units : List Source)
    (a : Annotations) (pool? : Option Pool)
    (hok : ∀ u ∈ units, (prepareOne (.declaring ds) settings.options u a).1.isOk) :
    ∃ outcomes, (prepareAll (.declaring ds) settings units a pool?).1 = .ok outcomes
      ∧ outcomes.map (·.name) = units.map (·.name)
      ∧ (∀ o ∈ outcomes, o.WellFormed)
      ∧ errorCount outcomes + warningCount outcomes = (outcomes.map (·.report.length)).sum
      ∧ (hasErrors outcomes ↔ ∃ o ∈ outcomes, ∃ d ∈ o.report, d.severity = .error)
      ∧ (∀ o ∈ outcomes, o.tree? = none → o.report.errorCount = 1)
      ∧ outcomes.countP (·.tree?.isNone) ≤ errorCount outcomes := by
  have henv := Env.installed_declaring ds
  have hall : (prepareAll (.declaring ds) settings units a pool?).1.isOk :=
    (isOk_prepareAll_iff henv).2 hok
  cases houtcomes : (prepareAll (.declaring ds) settings units a pool?).1 with
  | error stop =>
    rw [houtcomes] at hall
    cases hall
  | ok outcomes =>
    have hone : List.Forall₂ (fun u o => o.name = u.name ∧ o.WellFormed) units outcomes :=
      (forall₂_of_prepareAll_eq_ok henv houtcomes).imp
        fun _ _ h => wellFormed_of_prepareOne_eq_ok henv h
    have hformed : ∀ o ∈ outcomes, o.WellFormed :=
      forall_of_forall₂_right (hone.imp fun _ _ h => h.2)
    refine ⟨outcomes, rfl, map_eq_of_forall₂ (hone.imp fun _ _ h => h.1), hformed, ?_,
      hasErrors_iff outcomes, fun o ho => errorCount_of_tree?_eq_none (hformed o ho),
      countP_le_errorCount hformed⟩
    rw [errorCount_add_warningCount, report, List.length_flatMap]

/-- A unit that calls the enumeration factory without a name. -/
def unnamedUnit : Source where
  name := "unnamed"
  tree :=
    let valueTy := Library.classTy Library.fresh.1.enumValue
    { node := .apply
        { node := .ident "Value", span := ⟨0, 5⟩, ty := .method [] valueTy
          symbol := some Library.fresh.1.valueNoArg } []
      span := ⟨0, 7⟩, ty := valueTy }

/-- One unit breaks off with a defect, one is silent, and one has a warning; the pool lets them take
turns. -/
theorem prepareAll_wellFormed_shapes : ∃ outcomes,
    (prepareAll (.declaring shapes) {} [canvasUnit, shapeUnit, unnamedUnit] (.blank 34)
        (some ⟨[2, 1, 0, 1]⟩)).1 = .ok outcomes
      ∧ (∀ o ∈ outcomes, o.WellFormed)
      ∧ outcomes.map (·.tree?.isSome) = [false, true, true]
      ∧ errorCount outcomes = 1 ∧ warningCount outcomes = 1 := by
  have hok : ∀ u ∈ [canvasUnit, shapeUnit, unnamedUnit],
      (prepareOne (.declaring shapes) {} u (.blank 34)).1.isOk := by
    decide +kernel
  obtain ⟨outcomes, houtcomes, -, hformed, -⟩ := prepareAll_wellFormed shapes {}
    [canvasUnit, shapeUnit, unnamedUnit] (.blank 34) (some ⟨[2, 1, 0, 1]⟩) hok
  have hsummary : (prepareAll (.declaring shapes) {} [canvasUnit, shapeUnit, unnamedUnit]
      (.blank 34) (some ⟨[2, 1, 0, 1]⟩)).1.toOption.map (fun outcomes =>
        (outcomes.map (·.tree?.isSome), errorCount outcomes, warningCount outcomes))
      = some ([false, true, true], 1, 1) := by
    decide +kernel
  rw [houtcomes] at hsummary
  simp only [Except.toOption, Option.map_some, Option.some.injEq, Prod.mk.injEq] at hsummary
  exact ⟨outcomes, houtcomes, hformed, hsummary⟩

end Batch

end Interop
