import Interop.Proofs.Forwarders
import Interop.Proofs.Markers

/-!
# The verdict on one declaration

A unit that is prepared has the whole log of its tree.  Where declarations are told apart by their
places, what is found there on the structure of a declaration is what was reported on opening it,

    structureReports report d  =  the reports on structure among those on opening d

and a declaration that was not accepted put no marker on any class.
-/

namespace Interop.Pass

/-- The reports on structure at the place of the declaration. -/
def structureReports (r : Report) (d : Tree) : Report :=
  r.filter fun x => x.code.isStructure && x.primarySpan? = some d.span

/-- Between `a` and `b` classes got markers from other declarations of the tree than `d` only. -/
def Unmarked (env : Env) (t d : Tree) (a b : Annotations) : Prop :=
  ∀ r, b.of r = a.of r
    ∨ ∃ u ∈ declarations env t, u.span ≠ d.span ∧ b.of r = env.marker u.span :: a.of r

variable {env : Env} {options : Options} {a : Annotations} {t : Tree} {scope : Scope}
  {prepared : Prepared}

/-! ## Lemmas -/

/-- A unit that is prepared has written all of its log. -/
theorem report_of_prepare_eq_ok (henv : env.Installed)
    (hok : (prepare env options t a).1 = .ok prepared) :
    prepared.report = reports (log env options a t .root) := by
  obtain ⟨s, hends, -, hreport⟩ := prepare_eq_ok_iff.1 hok
  obtain ⟨result, done, -, hdone, hrun⟩ := run_transform henv options a t
  obtain ⟨waiting, hrun⟩ := hrun a rfl
  obtain ⟨hresult, rfl⟩ := Prod.mk.inj (hrun.symm.trans hends)
  obtain rfl := hdone _ hresult
  exact hreport

theorem filter_reports (es : List Event) :
    (reports es).filter (·.code.isStructure) = reports (es.filter (·.isVerdict)) := by
  induction es with
  | nil => rfl
  | cons e es ih =>
    cases e with
    | mark => exact ih
    | report d =>
      show (d :: reports es).filter _ = reports ((Event.report d :: es).filter _)
      rw [List.filter_cons, List.filter_cons, ih]
      cases hd : d.code.isStructure <;> simp [Event.isVerdict, hd, reports, Event.report?]

theorem reports_verdict (options : Options) (a : Annotations) (t : Tree) (scope : Scope) :
    reports (verdict env options a t scope)
      = (opened env options a t scope).2.report.filter (·.code.isStructure) := by
  rw [verdict, ← filter_reports, reports_openingLog]

/-! ## Top theorems -/

section

variable (henv : env.Installed) (hspans : ((declarations env t).map (·.span)).Nodup)

include henv hspans

/-- **What is reported on a declaration.** -/
theorem structureReports_of_prepare_eq_ok (hok : (prepare env options t a).1 = .ok prepared)
    {v : Tree × Scope} (hv : v ∈ visits env t .root) (hdef : v.1.node.isImplDef) :
    structureReports prepared.report v.1
      = (opened env options a v.1 v.2).2.report.filter (·.code.isStructure) := by
  have hplace : ∀ u : Tree × Scope, ∀ x ∈ reports (verdict env options a u.1 u.2),
      x.primarySpan? = some u.1.span ∧ u.1.node.isImplDef := by
    intro u x hx
    obtain ⟨e, he, hex⟩ := List.mem_filterMap.1 hx
    by_cases haccepts : accepts env u.1 u.2
    · rw [verdict_of_accepts haccepts, List.mem_singleton] at he
      subst he
      cases hex
    · obtain ⟨d, rfl, hspan, hudef⟩ := of_mem_verdict haccepts he
      cases hex
      exact ⟨hspan, hudef⟩
  -- the reports on structure come visit by visit
  have hreports : (reports (log env options a t .root)).filter (·.code.isStructure)
      = (visits env t .root).flatMap fun u => reports (verdict env options a u.1 u.2) := by
    rw [filter_reports, filter_log, reports, List.filterMap_flatMap]
    rfl
  have hsplit : structureReports prepared.report v.1 = (visits env t .root).flatMap fun u =>
      (reports (verdict env options a u.1 u.2)).filter (·.primarySpan? = some v.1.span) := by
    unfold structureReports
    rw [report_of_prepare_eq_ok henv hok, ← List.filter_flatMap, ← hreports, List.filter_filter]
    exact List.filter_congr fun x _ => Bool.and_comm _ _
  -- the place is that of one visit
  have hplaces : ((visits env t .root).flatMap fun u =>
      if !u.1.node.isImplDef then [] else [u.1.span]).Nodup := by
    rw [← filter_visits_isImplDef env t .root, List.filter_map, List.map_map] at hspans
    rw [flatMap_ite_nil]
    simpa [Function.comp_def] using hspans
  rw [hsplit, flatMap_eq_of_nodup hplaces hv (k := v.1.span) (by simp [hdef]) ?_, reports_verdict,
    List.filter_eq_self]
  · intro x hx
    rw [← reports_verdict] at hx
    exact decide_eq_true (hplace v x hx).1
  · intro u hu hne
    obtain ⟨x, hx⟩ := List.exists_mem_of_ne_nil _ hne
    obtain ⟨hx, hspan⟩ := List.mem_filter.1 hx
    obtain ⟨huspan, hudef⟩ := hplace u x hx
    have huv : u.1.span = v.1.span := Option.some.inj (huspan.symm.trans (of_decide_eq_true hspan))
    simp [hudef, huv]

/-- **A declaration that is not accepted leaves no marker.** -/
theorem unmarked_of_not_accepts (options : Options) (a : Annotations) {v : Tree × Scope}
    (hv : v ∈ visits env t .root) (hdef : v.1.node.isImplDef) (haccepts : ¬ accepts env v.1 v.2) :
    Unmarked env t v.1 a (prepare env options t a).2 := by
  obtain ⟨result, done, hstart, -, hrun⟩ := run_transform henv options a t
  obtain ⟨waiting, hrun⟩ := hrun a rfl
  have hafter : (prepare env options t a).2 = env.markAll (marks done) a := by
    rw [prepare_eq, hrun]
    rfl
  intro r
  rw [hafter]
  refine (Env.of_markAll_cases (marks done) a r).imp id ?_
  rintro ⟨-, x, hfirst, hgain⟩
  obtain ⟨m, hm, rfl⟩ := Option.map_eq_some_iff.1 hfirst
  have hmem : m ∈ marks (log env options a t .root) :=
    (hstart.filterMap _).subset (List.mem_of_find?_eq_some hm)
  rw [marks_log, List.mem_map] at hmem
  obtain ⟨u, hu, rfl⟩ := hmem
  obtain ⟨hu, huaccepts⟩ := List.mem_filter.1 hu
  have hudef := isImplDef_of_accepts huaccepts
  refine ⟨u.1, ?_, fun hspan => ?_, hgain⟩
  · rw [← filter_visits_isImplDef env t .root, List.mem_filter]
    exact ⟨List.mem_map_of_mem hu, hudef⟩
  · rw [visit_eq_of_span_eq hspans hu hv hudef hdef hspan] at huaccepts
    exact haccepts huaccepts

end

end Interop.Pass
