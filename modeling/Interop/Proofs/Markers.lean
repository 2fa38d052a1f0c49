import Interop.Proofs.Log
import Mathlib.Data.List.Nodup

/-!
# Marked or reported

A declaration that extends the marker type gets a verdict when the pass comes to it: the mark of the
class that it declares, or reports on its structure at its place, never both and never neither.

    verdict  =  [mark]                        if accepts
                reports at the place          else, and at least one

The verdicts in the log come in the order of the declarations (`filter_log`), so of the declarations
of a class the first that is not reported leaves its mark, also when the run breaks off later.
-/

namespace Interop.Pass

variable (env : Env) (options : Options)

/-! ## Algorithm -/

/-- The event tells of the structure of a declaration. -/
def Event.isVerdict : Event → Bool
  | mark _ _ => true
  | report d => d.code.isStructure

/-- What is written of the structure of a declaration. -/
def verdict (a : Annotations) (t : Tree) (scope : Scope) : List Event :=
  (openingLog env options a t scope).filter (·.isVerdict)

/-- No problem of structure is reported at the place of the declaration. -/
def unreported (r : Report) (d : Tree) : Bool :=
  !r.any fun x => x.code.isStructure && x.primarySpan? = some d.span

variable {env options} {a : Annotations} {t : Tree} {scope : Scope}

/-! ## Verdicts -/

theorem isStructure_of_mem_structuralProblems {p : Diagnostic.Problem}
    (h : p ∈ env.structuralProblems t scope) : p.code.isStructure := by
  unfold Env.structuralProblems at h
  simp only at h
  split at h
  next => cases h
  next s _ =>
    simp only [List.mem_append, List.mem_map] at h
    grind [Diagnostic.Code.isStructure]

theorem report_opened_of_jsAny (hfind : Rule.find? env t scope = some .jsAnyClass
    ∨ Rule.find? env t scope = some .jsAnyDef) :
    (opened env options a t scope).2.report
      = (env.structuralProblems t scope).map (·.diagnostic t.span) := by
  have hopening : opening env options t scope = Rule.checkJsAny env t scope := by
    unfold opening
    rcases hfind with h | h
    all_goals
      rw [h]
      rfl
  unfold opened
  rw [hopening, run_checkJsAny hfind]
  rfl

theorem report_opened_of_innerDef (options : Options) (a : Annotations)
    (hfind : Rule.find? env t scope = some .innerDef) :
    ∃ d, (opened env options a t scope).2.report = [d] ∧ d.code = .innerDeclaration
      ∧ d.primarySpan? = some t.span := by
  unfold opened opening
  rw [hfind]
  exact ⟨_, rfl, rfl, rfl⟩

/-- What a rule may report on entering a node. -/
def Rule.reports (code : Diagnostic.Code) : Rule → Bool
  | jsAnyClass | jsAnyDef | innerDef => code.isStructure
  | unnamedCall => code = .unnamedValue
  | nullNamedCall => code = .nullValueName
  | typeToken => code.isTypeToken
  | method | object => code.isExport
  | _ => false

/-- What is reported on a node is what its rule reports. -/
theorem exists_rule_of_mem_report_opened {d : Diagnostic}
    (hd : d ∈ (opened env options a t scope).2.report) :
    ∃ rule, Rule.find? env t scope = some rule ∧ rule.reports d.code := by
  cases hfind : Rule.find? env t scope with
  | none => simp [opened, opening, hfind] at hd
  | some rule =>
    refine ⟨rule, rfl, ?_⟩
    cases rule with
    | jsAnyClass | jsAnyDef =>
      rw [report_opened_of_jsAny (by simp [hfind]), List.mem_map] at hd
      obtain ⟨p, hp, rfl⟩ := hd
      exact isStructure_of_mem_structuralProblems hp
    | innerDef =>
      obtain ⟨_, hreport, hcode, -⟩ := report_opened_of_innerDef options a hfind
      rw [hreport, List.mem_singleton] at hd
      rw [hd, Rule.reports, hcode]
      rfl
    | typeToken =>
      rw [report_opened_of_isTypeToken (Rule.find?_eq_typeToken_iff.1 hfind)] at hd
      exact isTypeToken_of_mem_tokenReport hd
    | method =>
      simp only [opened, opening, hfind, Rule.enter, run_collectExports] at hd
      split at hd
      next => cases hd
      next forwarders report h => exact (Env.exportMembers?_eq_some h).2 d (by simpa using hd)
    | object =>
      simp only [opened, opening, hfind, Rule.enter, run_bind, run_look, run_emit,
        List.nil_append] at hd
      exact Env.isExport_of_mem_objectProblems hd
    | unnamedCall | nullNamedCall =>
      simp only [opened, opening, hfind, Rule.enter, run_emit, List.nil_append,
        List.mem_singleton] at hd
      rw [hd]
      rfl
    | enumValueDef => simp [opened, opening, hfind, run_discard_liftExcept] at hd
    | _ => simp [opened, opening, hfind, Rule.enter] at hd

/-- No other rule reports on the structure of a declaration. -/
theorem not_isStructure_of_mem_report_opened {d : Diagnostic}
    (h₁ : Rule.find? env t scope ≠ some .jsAnyClass) (h₂ : Rule.find? env t scope ≠ some .jsAnyDef)
    (h₃ : Rule.find? env t scope ≠ some .innerDef)
    (hd : d ∈ (opened env options a t scope).2.report) : ¬ d.code.isStructure := by
  obtain ⟨rule, hfind, hreports⟩ := exists_rule_of_mem_report_opened hd
  rw [hfind] at h₁ h₂ h₃
  cases rule with
  | jsAnyClass | jsAnyDef | innerDef => contradiction
  | _ =>
    revert hreports
    cases d.code <;>
      simp [Rule.reports, Diagnostic.Code.isExport, Diagnostic.Code.isTypeToken,
        Diagnostic.Code.isStructure]

/-- An accepted declaration is marked and not reported. -/
theorem verdict_of_accepts (h : accepts env t scope) :
    verdict env options a t scope = [.mark (env.table.typeSymbolOf t.symbol) t.span] := by
  obtain ⟨hrule, hnone⟩ := accepts_iff.1 h
  unfold verdict openingLog
  rw [if_pos h, report_opened_of_jsAny hrule, hnone]
  rfl

/-- Whatever else is written of the structure of a node is a report on a declaration, at its
place. -/
theorem of_mem_verdict (h : ¬ accepts env t scope) {e : Event}
    (he : e ∈ verdict env options a t scope) :
    ∃ d, e = .report d ∧ d.primarySpan? = some t.span ∧ t.node.isImplDef := by
  unfold verdict openingLog at he
  rw [if_neg h, List.nil_append, List.mem_filter, List.mem_map] at he
  obtain ⟨⟨d, hd, rfl⟩, hstructure⟩ := he
  refine ⟨d, rfl, ?_⟩
  by_cases hjs : Rule.find? env t scope = some .jsAnyClass ∨ Rule.find? env t scope = some .jsAnyDef
  · rw [report_opened_of_jsAny hjs, List.mem_map] at hd
    obtain ⟨p, -, rfl⟩ := hd
    refine ⟨rfl, ?_⟩
    rcases hjs with hfind | hfind
    · exact Rule.isImplDef_of_find?_eq_some hfind (.inl rfl)
    · exact Rule.isImplDef_of_find?_eq_some hfind (.inr (.inr rfl))
  · obtain ⟨h₁, h₂⟩ := not_or.1 hjs
    by_cases h₃ : Rule.find? env t scope = some .innerDef
    · obtain ⟨d', hreport, -, hspan⟩ := report_opened_of_innerDef options a h₃
      rw [hreport, List.mem_singleton] at hd
      subst hd
      exact ⟨hspan, Rule.isImplDef_of_find?_eq_some h₃ (.inr (.inl rfl))⟩
    · exact absurd hstructure (not_isStructure_of_mem_report_opened h₁ h₂ h₃ hd)

/-- A declaration that extends the marker type is not passed over. -/
theorem verdict_ne_nil (options : Options) (a : Annotations) (h : ¬ accepts env t scope)
    (ht : t.node.isImplDef) (hjs : env.isJsAny t.symbol) : verdict env options a t scope ≠ [] := by
  -- some problem of structure is reported
  suffices hreport : ∃ d ∈ (opened env options a t scope).2.report, d.code.isStructure by
    obtain ⟨d, hd, hstructure⟩ := hreport
    refine List.ne_nil_of_mem (a := .report d) ?_
    unfold verdict openingLog
    rw [if_neg h, List.nil_append, List.mem_filter]
    exact ⟨List.mem_map_of_mem hd, hstructure⟩
  have hproblem : Rule.find? env t scope = some .jsAnyClass
      ∨ Rule.find? env t scope = some .jsAnyDef →
      ∃ d ∈ (opened env options a t scope).2.report, d.code.isStructure := by
    intro hfind
    obtain ⟨p, hp⟩ := List.exists_mem_of_ne_nil _ fun hnone => h (accepts_iff.2 ⟨hfind, hnone⟩)
    rw [report_opened_of_jsAny hfind]
    exact ⟨p.diagnostic t.span, List.mem_map_of_mem hp, isStructure_of_mem_structuralProblems hp⟩
  rcases Rule.find?_of_isJsAny ht hjs scope with hfind | hfind | hfind
  · exact hproblem (.inl hfind)
  · obtain ⟨d, hreport, hcode, -⟩ := report_opened_of_innerDef options a hfind
    exact ⟨d, by rw [hreport]; exact .head _, by rw [hcode]; rfl⟩
  · exact hproblem (.inr hfind)

/-! ## Verdicts in order -/

/-- **The verdicts of a tree** come in the order of the visits. -/
theorem filter_log (a : Annotations) (t : Tree) (scope : Scope) :
    (log env options a t scope).filter (·.isVerdict)
      = (visits env t scope).flatMap fun v => verdict env options a v.1 v.2 := by
  induction t, scope using parts_induction env with
  | h t scope ih =>
    have hclosing : ((closingReport env a t).map Event.report).filter (·.isVerdict) = [] := by
      rw [List.filter_eq_nil_iff]
      intro e he
      obtain ⟨d, hd, rfl⟩ := List.mem_map.1 he
      have hexport := isExport_of_mem_closingReport hd
      show ¬ d.code.isStructure = true
      cases hcode : d.code <;>
        simp [hcode, Diagnostic.Code.isExport, Diagnostic.Code.isStructure] at hexport ⊢
    rw [log_eq, visits_eq, List.filter_append, List.filter_append, hclosing, List.append_nil,
      List.filter_flatMap, List.flatMap_cons, List.flatMap_assoc]
    exact congrArg _ (List.flatMap_congr ih)

/-- Two declarations that are visited are at different places, if all declarations are. -/
theorem visit_eq_of_span_eq (hspans : ((declarations env t).map (·.span)).Nodup)
    {u v : Tree × Scope} (hu : u ∈ visits env t scope) (hv : v ∈ visits env t scope)
    (hudef : u.1.node.isImplDef) (hvdef : v.1.node.isImplDef) (h : u.1.span = v.1.span) :
    u = v := by
  rw [← filter_visits_isImplDef env t scope, List.filter_map, List.map_map] at hspans
  exact List.inj_on_of_nodup_map hspans (List.mem_filter.2 ⟨hu, hudef⟩)
    (List.mem_filter.2 ⟨hv, hvdef⟩) h

theorem prefix_of_mem {α : Type} {as cs : List α} {x : α} (bs : List α) (h : cs <+: as ++ bs)
    (hx : x ∈ cs) (hnot : x ∉ as) : as <+: cs := by
  rcases List.prefix_or_prefix_of_prefix h (List.prefix_append as bs) with h | h
  · exact absurd (h.subset hx) hnot
  · exact h

section

variable {done : List Event} (hspans : ((declarations env t).map (·.span)).Nodup)
  (hstart : done <+: log env options a t scope)

include hspans hstart

/-- An accepted declaration is not reported. -/
theorem unreported_of_accepts {v : Tree × Scope} (hv : v ∈ visits env t scope)
    (haccepts : accepts env v.1 v.2) : unreported (reports done) v.1 := by
  unfold unreported
  rw [Bool.not_eq_true', List.any_eq_false]
  intro x hx
  rw [Bool.and_eq_true, decide_eq_true_eq]
  rintro ⟨hstructure, hspan⟩
  -- the report is in the verdict of a declaration at the same place, which is this one
  have hmem : Event.report x ∈ (log env options a t scope).filter (·.isVerdict) := by
    obtain ⟨e, he, hex⟩ := List.mem_filterMap.1 hx
    cases e with
    | mark r span => cases hex
    | report y =>
      cases hex
      exact List.mem_filter.2 ⟨hstart.subset he, hstructure⟩
  rw [filter_log, List.mem_flatMap] at hmem
  obtain ⟨u, hu, hmem⟩ := hmem
  by_cases huaccepts : accepts env u.1 u.2
  · rw [verdict_of_accepts huaccepts] at hmem
    simp at hmem
  · obtain ⟨y, hxy, hyspan, hudef⟩ := of_mem_verdict huaccepts hmem
    cases hxy
    have huv : u.1.span = v.1.span := Option.some.inj (hyspan.symm.trans hspan)
    rw [visit_eq_of_span_eq hspans hu hv hudef (isImplDef_of_accepts haccepts) huv] at huaccepts
    exact huaccepts haccepts

omit hspans hstart in
/-- A declaration whose verdict is written and that is not accepted is reported. -/
theorem not_unreported {v : Tree × Scope} (haccepts : ¬ accepts env v.1 v.2)
    (hdef : v.1.node.isImplDef) (hjs : env.isJsAny v.1.symbol)
    (hdone : ∀ e ∈ verdict env options a v.1 v.2, e ∈ done) :
    unreported (reports done) v.1 = false := by
  obtain ⟨e, he⟩ := List.exists_mem_of_ne_nil _
    (verdict_ne_nil options a haccepts hdef hjs)
  obtain ⟨d, rfl, hspan, -⟩ := of_mem_verdict haccepts he
  have hstructure : d.code.isStructure := (List.mem_filter.1 he).2
  unfold unreported
  rw [Bool.not_eq_false', List.any_eq_true]
  refine ⟨d, List.mem_filterMap.2 ⟨.report d, hdone _ he, rfl⟩, ?_⟩
  simp [hstructure, hspan]

omit hspans in
/-- What was written up to a mark has the verdicts on all that was visited before, if there is no
mark for the class among them. -/
theorem verdicts_of_mem_mark {pre post : List (Tree × Scope)} {v : Tree × Scope}
    (hvisits : visits env t scope = pre ++ v :: post)
    (hmem : Event.mark (markOf env v.1).1 (markOf env v.1).2 ∈ done)
    (hpre : ∀ u ∈ pre, accepts env u.1 u.2 →
      env.table.typeSymbolOf u.1.symbol ≠ (markOf env v.1).1) :
    pre.flatMap (fun u => verdict env options a u.1 u.2) <+: done.filter (·.isVerdict) := by
  refine prefix_of_mem ((v :: post).flatMap fun u => verdict env options a u.1 u.2) ?_
    (List.mem_filter.2 ⟨hmem, rfl⟩) ?_
  · rw [← List.flatMap_append, ← hvisits, ← filter_log]
    exact hstart.filter _
  · intro h
    obtain ⟨u, hu, h⟩ := List.mem_flatMap.1 h
    by_cases huaccepts : accepts env u.1 u.2
    · rw [verdict_of_accepts huaccepts, List.mem_singleton] at h
      injection h with hsymbol
      exact hpre u hu huaccepts hsymbol.symm
    · obtain ⟨_, h, -⟩ := of_mem_verdict huaccepts h
      cases h

/-- A declaration of the class `r` that extends the marker type and is not reported. -/
def isClean (env : Env) (r : SymbolRef) (report : Report) (d : Tree) : Bool :=
  env.isJsAny d.symbol && decide (env.table.typeSymbolOf d.symbol = r) && unreported report d

/-- **The first mark** for a class is that of its first declaration that is not reported. -/
theorem find?_declarations {r : SymbolRef} {x : Annotation}
    (hfirst : env.firstMark (marks done) r = some x) :
    ∃ d, (declarations env t).find? (isClean env r (reports done)) = some d
      ∧ x = env.marker d.span := by
  obtain ⟨m, hm, rfl⟩ := Option.map_eq_some_iff.1 hfirst
  have hmem : Event.mark m.1 m.2 ∈ done := by
    obtain ⟨e, he, hem⟩ := List.mem_filterMap.1 (List.mem_of_find?_eq_some hm)
    cases e with
    | mark r' span =>
      cases hem
      exact he
    | report d => cases hem
  -- the mark is that of the first accepted declaration of the class
  have hlog : (marks (log env options a t scope)).find? (fun m => m.1 = r) = some m :=
    (hstart.filterMap _).find?_eq_some hm
  rw [marks_log, List.find?_map, List.find?_filter] at hlog
  obtain ⟨v, hv, rfl⟩ := Option.map_eq_some_iff.1 hlog
  obtain ⟨hv, pre, post, hvisits, hbefore⟩ := List.find?_eq_some_iff_append.1 hv
  simp only [Function.comp, decide_eq_true_eq, Bool.decide_and, Bool.and_eq_true] at hv
  obtain ⟨haccepts, hr⟩ := hv
  have hpre : ∀ u ∈ pre, accepts env u.1 u.2 → env.table.typeSymbolOf u.1.symbol ≠ r := by
    intro u hu hu' hur
    have := hbefore u hu
    simp [hu', markOf, hur] at this
  have hdone := verdicts_of_mem_mark hstart hvisits hmem fun u hu haccepts =>
    (hpre u hu haccepts).trans_eq hr.symm
  refine ⟨v.1, ?_, rfl⟩
  rw [← filter_visits_isImplDef env t scope, hvisits, List.map_append, List.filter_append,
    List.map_cons, List.filter_cons, if_pos (isImplDef_of_accepts haccepts),
    List.find?_eq_some_iff_append]
  refine ⟨?_, _, _, rfl, fun d hd => ?_⟩
  · have hvisit : v ∈ visits env t scope := by
      rw [hvisits]
      exact List.mem_append_right _ (.head _)
    unfold isClean
    rw [isJsAny_of_accepts haccepts, unreported_of_accepts hspans hstart hvisit haccepts]
    simpa [markOf] using hr
  · obtain ⟨hd, hdef⟩ := List.mem_filter.1 hd
    obtain ⟨u, hu, rfl⟩ := List.mem_map.1 hd
    unfold isClean
    by_cases hjs : env.isJsAny u.1.symbol
    · by_cases hur : env.table.typeSymbolOf u.1.symbol = r
      · rw [not_unreported (fun haccepts => hpre u hu haccepts hur) hdef hjs fun e he =>
          (List.mem_filter.1 (hdone.subset (List.mem_flatMap.2 ⟨u, hu, he⟩))).1]
        simp
      · simp [hur]
    · simp [hjs]

end

/-- In a whole log, a declaration that extends the marker type and is not reported has its mark. -/
theorem mem_marks_log_of_unreported {d : Tree} (hd : d ∈ declarations env t)
    (hjs : env.isJsAny d.symbol)
    (hunreported : unreported (reports (log env options a t scope)) d) :
    ∃ m ∈ marks (log env options a t scope), m.1 = env.table.typeSymbolOf d.symbol := by
  rw [← filter_visits_isImplDef env t scope, List.mem_filter] at hd
  obtain ⟨hd, hdef⟩ := hd
  obtain ⟨v, hv, rfl⟩ := List.mem_map.1 hd
  refine ⟨markOf env v.1, ?_, rfl⟩
  rw [marks_log]
  refine List.mem_map_of_mem (List.mem_filter.2 ⟨hv, ?_⟩)
  by_contra haccepts
  -- else its verdict would be written, which is a report
  have hlog : ∀ e ∈ verdict env options a v.1 v.2, e ∈ log env options a t scope := by
    intro e he
    have hmem : e ∈ (log env options a t scope).filter (·.isVerdict) := by
      rw [filter_log]
      exact List.mem_flatMap.2 ⟨v, hv, he⟩
    exact (List.mem_filter.1 hmem).1
  rw [not_unreported haccepts hdef hjs hlog] at hunreported
  cases hunreported

/-! ## Top theorems -/

/-- Prepare trees one after the other, each with its options. -/
def prepareEach (env : Env) : List (Options × Tree) → Annotations → Annotations
  | [], a => a
  | u :: us, a => prepareEach env us (prepare env u.1 u.2 a).2

theorem exists_marks_prepareEach (henv : env.Installed) (us : List (Options × Tree))
    (a : Annotations) : ∃ ms, prepareEach env us a = env.markAll ms a := by
  induction us generalizing a with
  | nil => exact ⟨[], rfl⟩
  | cons u us ih =>
    obtain ⟨result, done, -, -, hrun⟩ := run_transform henv u.1 a u.2
    obtain ⟨waiting, hrun⟩ := hrun a rfl
    have hprepare : (prepare env u.1 u.2 a).2 = env.markAll (marks done) a := by
      rw [prepare_eq, hrun]
      rfl
    obtain ⟨ms, hms⟩ := ih (env.markAll (marks done) a)
    refine ⟨marks done ++ ms, ?_⟩
    rw [prepareEach, hprepare, hms, Env.markAll_append]

/-- **Marked or reported.**  When a unit is prepared, every declaration that extends the marker type
and is not reported is marked.  However the run ends, the annotations of a class stay as they are or
get one marker in front, if they had none: that of the first declaration of the class that is not
reported.  So no sequence of runs marks a class twice.  Each symbol of the table has its list of
annotations, and declarations are told apart by their places.

Of a unit that is prepared it counts only that its run ends, not that nothing is left over. -/
theorem marked_or_reported (ds : List Declaration) (options : Options) (a : Annotations) (t : Tree)
    (hsize : a.lists.size = (Env.declaring ds).table.size)
    (hspans : ((declarations (.declaring ds) t).map (·.span)).Nodup) :
    (∀ prepared, (prepare (.declaring ds) options t a).1 = .ok prepared →
        prepared.report = (run (transform (.declaring ds) options t .root)
            { annotations := a }).2.report
        ∧ ∀ d ∈ declarations (.declaring ds) t, (Env.declaring ds).isJsAny d.symbol →
            unreported prepared.report d →
            (prepare (.declaring ds) options t a).2.has
              ((Env.declaring ds).table.typeSymbolOf d.symbol)
              (some (Env.declaring ds).lib.rawJSType))
      ∧ (∀ r, (prepare (.declaring ds) options t a).2.of r = a.of r
          ∨ (a.has r (some (Env.declaring ds).lib.rawJSType) = false
            ∧ ∃ d, (declarations (.declaring ds) t).find? (isClean (.declaring ds) r
                  (run (transform (.declaring ds) options t .root) { annotations := a }).2.report)
                = some d
              ∧ (prepare (.declaring ds) options t a).2.of r
                = (Env.declaring ds).marker d.span :: a.of r))
      ∧ ∀ us r, (prepareEach (.declaring ds) us a).of r = a.of r
          ∨ (a.has r (some (Env.declaring ds).lib.rawJSType) = false
            ∧ ∃ span, (prepareEach (.declaring ds) us a).of r
              = (Env.declaring ds).marker span :: a.of r) := by
  have henv := Env.installed_declaring ds
  obtain ⟨result, done, hstart, hdone, hrun⟩ := run_transform henv options a t
  obtain ⟨waiting, hrun⟩ := hrun a rfl
  have hafter : (prepare (.declaring ds) options t a).2
      = (Env.declaring ds).markAll (marks done) a := by
    rw [prepare_eq, hrun]
    rfl
  have hreport : (run (transform (.declaring ds) options t .root) { annotations := a }).2.report
      = reports done := by
    rw [hrun]
    rfl
  rw [hreport, hafter]
  refine ⟨fun prepared hprepared => ?_, fun r => ?_, fun us r => ?_⟩
  · rw [prepare_eq, hrun] at hprepared
    obtain ⟨out, hout, hprepared⟩ := Typing.bind_eq_ok.1 hprepared
    obtain rfl := hdone out hout
    have hsame : prepared.report = reports (log (.declaring ds) options a t .root) := by
      split at hprepared
      next =>
        cases hprepared
        rfl
      next => cases hprepared
    refine ⟨hsame, fun d hd hjs hunreported => ?_⟩
    obtain ⟨id, hid, hlt⟩ := henv.exists_of_isJsAny hjs
    rw [Env.has_markAll, or_iff_not_imp_left]
    refine fun hnot => ⟨?_, mem_marks_log_of_unreported hd hjs (hsame ▸ hunreported)⟩
    unfold Annotations.lacks
    rw [Bool.eq_false_iff.2 hnot, hid, hsize]
    simpa using hlt
  · refine (Env.of_markAll_cases (marks done) a r).imp id ?_
    rintro ⟨hnot, x, hfirst, hgain⟩
    obtain ⟨d, hd, rfl⟩ := find?_declarations hspans hstart hfirst
    exact ⟨hnot, d, hd, hgain⟩
  · obtain ⟨ms, hms⟩ := exists_marks_prepareEach henv us a
    rw [hms]
    refine (Env.of_markAll_cases ms a r).imp id ?_
    rintro ⟨hnot, x, hfirst, hgain⟩
    obtain ⟨m, -, rfl⟩ := Option.map_eq_some_iff.1 hfirst
    exact ⟨hnot, m.2, hgain⟩

/-- A class, and a trait that extends the marker type. -/
def hostAndShape : List Declaration :=
  [⟨some SymbolTable.root, "app", .package⟩,
   ⟨some 29, "Host", .classDef false [] []⟩,
   ⟨some 29, "Shape", .classDef true [] [Library.classTy Library.fresh.1.jsAny]⟩]

/-- Further an object that extends the marker type. -/
def hostShapeAndNative : List Declaration :=
  hostAndShape ++ [⟨some 29, "Native", .object [] [Library.classTy Library.fresh.1.jsAny]⟩]

/-- The trait stands in the class first, where it may not, and then in the package, and so does the
object. -/
def shapeTwice : Tree :=
  let shape (span : Span) : Tree :=
    { node := .classDef { node := .template [] [], span := span, symbol := some 31 }
      span := span, symbol := some 31 }
  let host : Tree :=
    { node := .classDef
        { node := .template [] [shape ⟨10, 18⟩], span := ⟨6, 20⟩, symbol := some 30 }
      span := ⟨0, 20⟩, symbol := some 30 }
  let native : Tree :=
    { node := .objectDef { node := .template [] [], span := ⟨30, 40⟩, symbol := some 33 }
      span := ⟨30, 40⟩, symbol := some 32 }
  { node := .packageDef [host, shape ⟨21, 29⟩, native], span := ⟨0, 40⟩, symbol := some 29 }

/-- The declaration in the class is reported, the other one leaves its mark.  The object has the
number 32, and its mark is on the class behind it. -/
theorem marked_or_reported_shapeTwice :
    (∃ prepared, (prepare (.declaring hostShapeAndNative) {} shapeTwice (.blank 34)).1
          = .ok prepared
        ∧ prepared.report.map (·.primarySpan?) = [some ⟨10, 18⟩])
      ∧ (∀ r ∈ [some 31, some 33],
        (prepare (.declaring hostShapeAndNative) {} shapeTwice (.blank 34)).2.has r
          (some Library.fresh.1.rawJSType))
      ∧ (prepare (.declaring hostShapeAndNative) {} shapeTwice (.blank 34)).2.of (some 31)
          = [{ symbol := some Library.fresh.1.rawJSType, span := ⟨21, 29⟩ }]
      ∧ (prepare (.declaring hostShapeAndNative) {} shapeTwice (.blank 34)).2.of (some 32) = []
      ∧ (prepare (.declaring hostShapeAndNative) {} shapeTwice (.blank 34)).2.of (some 33)
          = [{ symbol := some Library.fresh.1.rawJSType, span := ⟨30, 40⟩ }] := by
  have hok : (prepare (.declaring hostShapeAndNative) {} shapeTwice (.blank 34)).1.toOption.map
      (·.report.map (·.primarySpan?)) = some [some ⟨10, 18⟩] := by
    decide +kernel
  obtain ⟨hmarked, hof, -⟩ := marked_or_reported hostShapeAndNative {} (.blank 34) shapeTwice
    (by decide +kernel) (by decide +kernel)
  cases hprepared : (prepare (.declaring hostShapeAndNative) {} shapeTwice (.blank 34)).1 with
  | error stop =>
    rw [hprepared] at hok
    cases hok
  | ok prepared =>
    rw [hprepared] at hok
    obtain ⟨hreport, hmarked⟩ := hmarked prepared hprepared
    -- a class whose annotations change has the mark of its first unreported declaration
    have hgains : ∀ r span,
        (prepare (.declaring hostShapeAndNative) {} shapeTwice (.blank 34)).2.of r
            ≠ (Annotations.blank 34).of r →
        ((declarations (.declaring hostShapeAndNative) shapeTwice).find?
          (isClean (.declaring hostShapeAndNative) r
            (run (transform (.declaring hostShapeAndNative) {} shapeTwice .root)
              { annotations := .blank 34 }).2.report)).map (·.span) = some span →
        (prepare (.declaring hostShapeAndNative) {} shapeTwice (.blank 34)).2.has r
            (some Library.fresh.1.rawJSType)
          ∧ (prepare (.declaring hostShapeAndNative) {} shapeTwice (.blank 34)).2.of r
            = (Env.declaring hostShapeAndNative).marker span :: (Annotations.blank 34).of r := by
      intro r span hne hspan
      obtain ⟨-, d, hd, hgain⟩ := (hof r).resolve_left hne
      have hclean := List.find?_some hd
      unfold isClean at hclean
      rw [← hreport] at hclean
      simp only [Bool.and_eq_true, decide_eq_true_eq] at hclean
      obtain ⟨⟨hjs, hsymbol⟩, hunreported⟩ := hclean
      rw [hd, Option.map_some, Option.some.injEq] at hspan
      rw [← hspan]
      refine ⟨?_, hgain⟩
      rw [← hsymbol]
      exact hmarked d (List.mem_of_find?_eq_some hd) hjs hunreported
    obtain ⟨hshape, hshapeMark⟩ := hgains (some 31) ⟨21, 29⟩ (by decide +kernel) (by decide +kernel)
    obtain ⟨hnative, hnativeMark⟩ :=
      hgains (some 33) ⟨30, 40⟩ (by decide +kernel) (by decide +kernel)
    exact ⟨⟨prepared, rfl, Option.some.inj hok⟩, by simpa using ⟨hshape, hnative⟩, hshapeMark,
      by decide +kernel, hnativeMark⟩

end Interop.Pass
