import Interop.Proofs.Delivery
import Interop.Proofs.Verdicts
import Interop.Proofs.Warnings
import Mathlib.Data.List.Perm.Basic

/-!
# Exports are answered once

What a definition asks to export comes to a report or to a forwarder when the pass visits it.  The
rule for the node answers for some exports, and what is done on leaving it for others:

    local                    exportedLocal on each                              on leaving
    method, not shown        one error, on the first                            its rule
    method, shown            exportedUnderscores on each with `__`, and a
                             forwarder for each of the others                   its rule
    object, private          exportedPrivate on each                            its rule
    object, nested           exportedNested on each                             its rule

and no export is answered for twice, since all reports on exports and all forwarders of a run are
those of its visits.
-/

namespace Interop

open Diagnostic (Code)

/-! ## Algorithm -/

/-- A report with the code on each of the exports. -/
def errorsOn (code : Code) (es : List Export) : List (Code × Option Span) :=
  es.map fun e => (code, some e.span)

/-- The export has two underscores in a row in its name. -/
def Export.isMangled (e : Export) : Bool := hasDoubleUnderscore e.jsName.toList

/-- The forwarders in a tree, with all that they carry. -/
def Tree.shown (t : Tree) : List (String × ExportKind × Span × Ty × SymbolRef) :=
  t.preorder.flatMap Pass.forwarderOutline

namespace Pass

variable (env : Env) (options : Options) (a : Annotations)

/-- The reports on exports that a visit makes, on opening the node and on leaving it. -/
def exportErrors (v : Tree × Scope) : Report :=
  ((opened env options a v.1 v.2).2.report ++ closingReport env a v.1).filter (·.code.isExport)

/-- The forwarders that a visit makes. -/
def newForwarders (v : Tree × Scope) : List Tree :=
  (opened env options a v.1 v.2).2.waiting.map (·.2)

/-- The visit of a definition answers for its exports. -/
structure Answered (v : Tree × Scope) (s : Symbol) : Prop where
  ofLocal : s.isLocal → ¬ (env.table.get? s.owner).any (·.has .caseApply) →
    (exportErrors env options a v).map Diagnostic.mark
        = errorsOn .exportedLocal (env.exportsOf a v.1.symbol)
      ∧ newForwarders env options a v = []
  ofMethod : v.1.node.isDefDef → ¬ s.isLocal → ¬ s.isConstructor →
    if env.isShown s then
      (exportErrors env options a v).map Diagnostic.mark
          = errorsOn .exportedUnderscores ((env.exportsOf a v.1.symbol).filter (·.isMangled))
        ∧ newForwarders env options a v
          = ((env.exportsOf a v.1.symbol).filter (!·.isMangled)).map (·.forwarder v.1.symbol s)
    else
      (∃ code ∈ [Code.exportedMember, .exportedPrivate, .exportedMacro],
        (exportErrors env options a v).map Diagnostic.mark
          = errorsOn code ((env.exportsOf a v.1.symbol).take 1))
        ∧ newForwarders env options a v = []
  ofObject : Rule.find? env v.1 v.2 = some .object → ¬ s.isLocal →
    (exportErrors env options a v).map Diagnostic.mark
      = if s.has .privateMod then errorsOn .exportedPrivate (env.exportsOf a v.1.symbol)
        else if env.table.kind? s.owner ≠ some .package then
          errorsOn .exportedNested (env.exportsOf a v.1.symbol)
        else []

end Pass

/-! ## Lemmas -/

theorem flatMap_ite_singleton {α β : Type} (p : α → Bool) (f : α → β) (as : List α) :
    (as.flatMap fun a => if p a then [f a] else []) = (as.filter p).map f := by
  rw [← List.filter_congr (p := fun a => !!p a) fun a _ => Bool.not_not _, ← flatMap_ite_nil]
  exact List.flatMap_congr fun a _ => by cases p a <;> rfl

theorem map_mark_diagnostic (p : Diagnostic.Problem) (es : List Export) :
    (es.map fun e => p.diagnostic e.span).map Diagnostic.mark = errorsOn p.code es := by
  rw [List.map_map]
  rfl

namespace Env

variable {env : Env} {a : Annotations} {method : SymbolRef} {s : Symbol}

/-! ### Methods -/

/-- A local method is left to be reported where its definition ends. -/
theorem exportMembers?_of_isLocal (hget : env.table.get? method = some s) (hlocal : s.isLocal) :
    env.exportMembers? a method = some ([], []) := by
  unfold exportMembers?
  rw [hget]
  split
  next h _ =>
    cases h
    rw [if_pos hlocal]
  next => rfl

/-- A method that may not be shown has one error, on the first of its exports. -/
theorem exportMembers?_of_not_isShown (hget : env.table.get? method = some s)
    (hlocal : ¬ s.isLocal) (hctor : ¬ s.isConstructor) (hshown : ¬ env.isShown s) :
    ∃ problem : Diagnostic.Problem,
      problem.code ∈ [Code.exportedMember, .exportedPrivate, .exportedMacro]
      ∧ env.exportMembers? a method
        = some ([], ((env.exportsOf a method).take 1).map fun e => problem.diagnostic e.span) := by
  obtain ⟨problem, hproblem⟩ : ∃ problem, env.methodProblem? s = some problem := by
    rw [← Option.ne_none_iff_exists', ne_eq, methodProblem?_eq_none_iff]
    rintro ⟨hexportable, hkind, hjs⟩
    exact hshown (by simp [isShown, hlocal, hctor, hexportable, hkind, hjs])
  refine ⟨problem, ?_, ?_⟩
  · unfold methodProblem? at hproblem
    grind
  · unfold exportMembers?
    rw [hget]
    cases hexports : env.exportsOf a method with
    | nil => rfl
    | cons first rest =>
      simp only
      rw [if_neg hlocal, hproblem]
      rfl

/-- A method that may be shown has an error or a forwarder for each of its exports. -/
theorem exportMembers?_of_isShown (hget : env.table.get? method = some s)
    (hshown : env.isShown s) :
    ∃ problem : Diagnostic.Problem, problem.code = .exportedUnderscores
      ∧ env.exportMembers? a method
        = some (((env.exportsOf a method).filter (!·.isMangled)).map (·.forwarder method s),
            ((env.exportsOf a method).filter (·.isMangled)).map
              fun e => problem.diagnostic e.span) := by
  have hparts := hshown
  simp only [isShown, Bool.and_eq_true, Bool.not_eq_true'] at hparts
  obtain ⟨⟨⟨⟨hlocal, hctor⟩, hexportable⟩, hkind⟩, hjs⟩ := hparts
  have hproblem : env.methodProblem? s = none :=
    methodProblem?_eq_none_iff.2 ⟨hexportable, by simp [hkind], by simp [hjs]⟩
  refine ⟨⟨.exportedUnderscores, "An exported name may not contain a double underscore (`__`)"⟩,
    rfl, ?_⟩
  have hmember : env.exportMember? method s = fun e => pure
      (if e.isMangled then [] else [e.forwarder method s],
        if e.isMangled then [Diagnostic.Problem.diagnostic ⟨.exportedUnderscores,
          "An exported name may not contain a double underscore (`__`)"⟩ e.span] else []) := by
    funext e
    unfold exportMember? Export.isMangled
    rw [hctor]
    split <;> rfl
  unfold exportMembers?
  rw [hget, ← flatMap_ite_nil, ← flatMap_ite_singleton]
  cases hexports : env.exportsOf a method with
  | nil => rfl
  | cons first rest =>
    simp only
    rw [if_neg (by simp [hlocal]), hproblem, hmember]
    simp only
    rw [List.mapM_pure]
    simp [List.flatMap_map]

/-! ### Locals and objects -/

theorem localProblems_of_isLocal (hget : env.table.get? method = some s) (hlocal : s.isLocal)
    (howner : ¬ (env.table.get? s.owner).any (·.has .caseApply)) :
    ∃ problem : Diagnostic.Problem, problem.code = .exportedLocal
      ∧ env.localProblems a method
        = (env.exportsOf a method).map fun e => problem.diagnostic e.span := by
  unfold localProblems
  rw [hget]
  simp only
  rw [if_neg (by simp [hlocal, howner])]
  exact ⟨_, rfl, rfl⟩

theorem localProblems_of_exportsOf_eq_nil (h : env.exportsOf a method = []) :
    env.localProblems a method = [] := by
  unfold localProblems
  rw [h]
  split
  next => rfl
  next => exact ite_self []

theorem objectProblems_of_exportsOf_eq_nil (h : env.exportsOf a method = []) :
    env.objectProblems a method = [] := by
  unfold objectProblems
  rw [h]
  split <;> rfl

/-- Objects have to be visible, and members of packages. -/
theorem map_mark_objectProblems (hget : env.table.get? method = some s) (hlocal : ¬ s.isLocal) :
    (env.objectProblems a method).map Diagnostic.mark
      = if s.has .privateMod then errorsOn .exportedPrivate (env.exportsOf a method)
        else if env.table.kind? s.owner ≠ some .package then
          errorsOn .exportedNested (env.exportsOf a method)
        else [] := by
  unfold objectProblems objectProblem?
  rw [hget, Option.bind_some, if_neg hlocal, Symbol.isExportable, Bool.not_not]
  by_cases hprivate : s.has .privateMod
  · rw [if_pos hprivate, if_pos hprivate]
    exact map_mark_diagnostic _ _
  · rw [if_neg hprivate, if_neg hprivate]
    by_cases hnested : env.table.kind? s.owner ≠ some .package
    · rw [if_pos hnested, if_pos hnested]
      exact map_mark_diagnostic _ _
    · rw [if_neg hnested, if_neg hnested]
      rfl

end Env

namespace Pass

variable {env : Env} {options : Options} {a : Annotations} {t u out : Tree} {scope : Scope}
  {s : Symbol} {v : Tree × Scope}

/-! ### One visit -/

/-- The rules for methods and objects answer for exports, and no others. -/
theorem filter_report_opened (options : Options) (a : Annotations) (t : Tree) (scope : Scope) :
    (opened env options a t scope).2.report.filter (·.code.isExport)
      = if t.node.isDefDef then ((env.exportMembers? a t.symbol).map (·.2)).getD []
        else if Rule.find? env t scope = some .object then env.objectProblems a t.symbol
        else [] := by
  by_cases hdef : t.node.isDefDef
  · rw [if_pos hdef, opened_of_method (Rule.find?_eq_method_iff.2 hdef), run_collectExports]
    simp only
    cases hmembers : env.exportMembers? a t.symbol with
    | none => rfl
    | some r =>
      exact List.filter_eq_self.2 (Env.exportMembers?_eq_some hmembers).2
  · rw [if_neg hdef]
    by_cases hobject : Rule.find? env t scope = some .object
    · rw [if_pos hobject]
      simp only [opened, opening, hobject, Rule.enter, run_bind, run_look, run_emit, List.nil_append]
      exact List.filter_eq_self.2 fun d => Env.isExport_of_mem_objectProblems
    · rw [if_neg hobject, List.filter_eq_nil_iff]
      intro d hd
      obtain ⟨rule, hfind, hreports⟩ := exists_rule_of_mem_report_opened hd
      cases rule with
      | method => exact absurd (Rule.find?_eq_method_iff.1 hfind) hdef
      | object => exact absurd hfind hobject
      | _ =>
        revert hreports
        cases d.code <;>
          simp [Rule.reports, Code.isExport, Code.isTypeToken, Code.isStructure]

theorem exportErrors_eq (options : Options) (a : Annotations) (v : Tree × Scope) :
    exportErrors env options a v
      = (if v.1.node.isDefDef then ((env.exportMembers? a v.1.symbol).map (·.2)).getD []
          else if Rule.find? env v.1 v.2 = some .object then env.objectProblems a v.1.symbol
          else [])
        ++ closingReport env a v.1 := by
  rw [exportErrors, List.filter_append, filter_report_opened,
    List.filter_eq_self.2 fun _ => isExport_of_mem_closingReport]

theorem newForwarders_eq (options : Options) (a : Annotations) (v : Tree × Scope) :
    newForwarders env options a v
      = if v.1.node.isDefDef then ((env.exportMembers? a v.1.symbol).map (·.1)).getD []
        else [] := by
  unfold newForwarders
  by_cases hdef : v.1.node.isDefDef
  · rw [if_pos hdef, opened_of_method (Rule.find?_eq_method_iff.2 hdef), run_collectExports]
    simp only
    cases env.exportMembers? a v.1.symbol with
    | none => rfl
    | some r => simp [Function.comp_def]
  · rw [if_neg hdef, waiting_opened_of_ne_method (mt Rule.find?_eq_method_iff.1 hdef)]
    rfl

theorem closingReport_of_not_isLocal (hget : env.table.get? t.symbol = some s)
    (hlocal : ¬ s.isLocal) : closingReport env a t = [] := by
  unfold closingReport Env.localProblems
  rw [hget]
  simp [hlocal]

theorem isMemberDef_of_isDefDef (ht : t.node.isDefDef) : t.node.isMemberDef := by
  cases hnode : t.node <;> simp [hnode, Node.isDefDef, Node.isMemberDef] at ht ⊢

theorem isMemberDef_of_object (hfind : Rule.find? env t scope = some .object) :
    t.node.isMemberDef := by
  have ht : t.node.isObjectDef := Rule.applies_of_find?_eq_some hfind
  cases hnode : t.node <;> simp [hnode, Node.isObjectDef, Node.isMemberDef] at ht ⊢

/-- Nothing is said of exports where none are asked for. -/
theorem exportErrors_eq_nil
    (h : ¬ v.1.node.isMemberDef ∨ env.exportsOf a v.1.symbol = []) :
    exportErrors env options a v = [] ∧ newForwarders env options a v = [] := by
  rw [exportErrors_eq, newForwarders_eq]
  rcases h with hdef | hexports
  · rw [if_neg (mt isMemberDef_of_isDefDef hdef), if_neg (mt isMemberDef_of_object hdef),
      if_neg (mt isMemberDef_of_isDefDef hdef), closingReport, if_neg hdef]
    exact ⟨rfl, rfl⟩
  · rw [Env.exportMembers?_of_exportsOf_eq_nil hexports, closingReport,
      Env.localProblems_of_exportsOf_eq_nil hexports,
      Env.objectProblems_of_exportsOf_eq_nil hexports]
    simp

/-- **A definition is answered for once.** -/
theorem answered (options : Options) (a : Annotations) (v : Tree × Scope)
    (hdef : v.1.node.isMemberDef) (hget : env.table.get? v.1.symbol = some s) :
    Answered env options a v s where
  ofLocal hlocal howner := by
    have hobject : env.objectProblems a v.1.symbol = [] := by
      have hnone : env.objectProblem? s = none := if_pos hlocal
      unfold Env.objectProblems
      rw [hget, Option.bind_some, hnone]
    obtain ⟨problem, hcode, hclosing⟩ := Env.localProblems_of_isLocal (a := a) hget hlocal howner
    rw [exportErrors_eq, newForwarders_eq, Env.exportMembers?_of_isLocal hget hlocal, hobject,
      closingReport, if_pos hdef, hclosing, ← hcode, ← map_mark_diagnostic]
    simp
  ofMethod hdefDef hlocal hctor := by
    rw [exportErrors_eq, newForwarders_eq, if_pos hdefDef, if_pos hdefDef,
      closingReport_of_not_isLocal hget hlocal, List.append_nil]
    split
    next hshown =>
      obtain ⟨problem, hcode, hmembers⟩ := Env.exportMembers?_of_isShown (a := a) hget hshown
      rw [hmembers, ← hcode, ← map_mark_diagnostic]
      exact ⟨rfl, rfl⟩
    next hshown =>
      obtain ⟨problem, hcode, hmembers⟩ :=
        Env.exportMembers?_of_not_isShown (a := a) hget hlocal hctor hshown
      rw [hmembers]
      exact ⟨⟨problem.code, hcode, map_mark_diagnostic _ _⟩, rfl⟩
  ofObject hobject hlocal := by
    have hdefDef : ¬ v.1.node.isDefDef := by
      intro h
      rw [Rule.find?_eq_method_iff.2 h] at hobject
      cases hobject
    rw [exportErrors_eq, if_neg hdefDef, if_pos hobject, closingReport_of_not_isLocal hget hlocal,
      List.append_nil, Env.map_mark_objectProblems hget hlocal]

/-! ### Whole runs -/

/-- **The reports on exports** of a tree are those of its visits. -/
theorem perm_filter_log (options : Options) (a : Annotations) (t : Tree) (scope : Scope) :
    ((reports (log env options a t scope)).filter (·.code.isExport)).Perm
      ((visits env t scope).flatMap (exportErrors env options a)) := by
  induction t, scope using parts_induction env with
  | h t scope ih =>
    have hparts : ((parts env t scope).flatMap fun c =>
          (reports (log env options a c (inner env t scope))).filter (·.code.isExport)).Perm
        ((parts env t scope).flatMap fun c =>
          (visits env c (inner env t scope)).flatMap (exportErrors env options a)) :=
      List.Perm.flatMap_left _ ih
    rw [reports_log_eq, visits_eq, List.flatMap_cons, List.flatMap_assoc, exportErrors,
      List.filter_append, List.filter_append, List.filter_append, List.filter_flatMap,
      List.append_assoc, List.append_assoc]
    exact List.Perm.append_left _ (List.perm_append_comm.trans (hparts.append_left _))

/-- The forwarders that wait. -/
def awaiting (s : State) : List (String × ExportKind × Span × Ty × SymbolRef) :=
  s.waiting.flatMap (·.2.shown)

variable {s₀ s₁ : State}

theorem shown_eq (t : Tree) : t.shown = forwarderOutline t ++ t.children.flatMap Tree.shown := by
  rw [Tree.shown, t.preorder_eq, List.flatMap_cons, List.flatMap_assoc]
  rfl

theorem shown_of_isTypable (t : Tree) (ht : t.node.isTypable) :
    t.shown = t.children.flatMap Tree.shown := by
  rw [shown_eq, forwarderOutline]
  split
  next hnode =>
    rw [hnode] at ht
    cases ht
  next => rfl

theorem awaiting_of_ends_opening (ha : env.exportsOf s₀.annotations = env.exportsOf a)
    (h : Ends (opening env options t scope) s₀ () s₁) :
    awaiting s₁ = awaiting s₀ ++ (newForwarders env options a (t, scope)).flatMap Tree.shown := by
  unfold Ends at h
  rw [run_opening] at h
  obtain ⟨-, rfl⟩ := Prod.mk.inj h
  simp only [awaiting, newForwarders, (opened_congr options ha t scope).2.2, List.flatMap_append,
    List.flatMap_map]

/-- What a body takes up waits no longer. -/
theorem perm_of_ends_leave (h : Ends (leave env u) s₀ out s₁) :
    (out.shown ++ awaiting s₁).Perm (u.shown ++ awaiting s₀) := by
  rcases ends_leave h with ⟨parents, body, hnode, rfl, rfl⟩ | ⟨-, rfl, rfl⟩
  · have hsplit : (((s₀.waiting.filter (·.1 = u.symbol)).map (·.2)).flatMap Tree.shown
          ++ (s₀.waiting.filter fun w => !(decide (w.1 = u.symbol))).flatMap (·.2.shown)).Perm
        (s₀.waiting.flatMap (·.2.shown)) := by
      rw [List.flatMap_map, ← List.flatMap_append]
      exact (List.filter_append_perm _ s₀.waiting).flatMap_right _
    rw [shown_eq, shown_eq u]
    simp only [awaiting, forwarderOutline, Tree.children, Node.children, hnode, List.nil_append,
      List.flatMap_append, List.append_assoc]
    exact (hsplit.append_left _).append_left _
  · exact List.Perm.refl _

/-- Running over parts one by one loses and adds what each of them does. -/
theorem Chain.perm {α β γ : Type} {R : α → State → β → State → Prop} {as : List α} {bs : List β}
    {f : α → List γ} {g : β → List γ} {w : State → List γ} {P : State → Prop}
    (h : Chain R as s₀ bs s₁)
    (hR : ∀ a ∈ as, ∀ s b s', P s → R a s b s' → (g b ++ w s').Perm (w s ++ f a) ∧ P s')
    (hs : P s₀) : (bs.flatMap g ++ w s₁).Perm (w s₀ ++ as.flatMap f) := by
  induction h with
  | nil => simp
  | cons hab _ ih =>
    obtain ⟨hperm, hs'⟩ := hR _ (.head _) _ _ _ hs hab
    have hrest := ih (fun a ha => hR a (.tail _ ha)) hs'
    rw [List.flatMap_cons, List.flatMap_cons, List.append_assoc, ← List.append_assoc (w _)]
    refine (hrest.append_left _).trans ?_
    rw [← List.append_assoc]
    exact hperm.append_right _

/-- **The forwarders of a run.**  Those that come out or wait are those that came in or waited, and
those of the visits. -/
theorem perm_of_ends (henv : env.Installed) (h : Ends (transform env options t scope) s₀ out s₁)
    (ha : env.exportsOf s₀.annotations = env.exportsOf a) :
    (out.shown ++ awaiting s₁).Perm (awaiting s₀ ++ ((env.live t).flatMap forwarderOutline
      ++ (visits env t scope).flatMap fun v =>
          (newForwarders env options a v).flatMap Tree.shown)) := by
  induction t, scope using parts_induction env generalizing s₀ s₁ out with
  | h t scope ih =>
    obtain ⟨s₂, cs, s₃, u, hopen, hparts, hrebuild, hleave⟩ := ends_transform_iff.1 h
    have hbuilt := (lasting_forwarderOutline env).built
    have hu : u.shown = forwarderOutline t ++ cs.flatMap Tree.shown := by
      rw [shown_eq, (lasting_forwarderOutline env).of_rebuild henv hparts.length_eq hrebuild,
        flatMap_children_of_rebuild shown_of_isTypable henv hparts.length_eq hrebuild]
    have hcs := hparts.perm (g := Tree.shown) (w := awaiting) (P := fun s => env.exportsOf s.annotations
        = env.exportsOf a)
      (fun c hc s b s' hs h => ⟨ih c hc h hs, (exportsOf_eq_of_ends henv h).trans hs⟩)
      ((exportsOf_eq_of_ends_opening henv hopen).trans ha)
    have hsplit := (List.flatMap_append_perm (parts env t scope)
      (fun c => (env.live c).flatMap forwarderOutline)
      (fun c => (visits env c (inner env t scope)).flatMap fun v =>
        (newForwarders env options a v).flatMap Tree.shown))
    have hout := perm_of_ends_leave hleave
    rw [hu] at hout
    rw [awaiting_of_ends_opening ha hopen] at hcs
    rw [flatMap_live_parts (fun u hu => hbuilt u (.inl hu)) t scope, visits_eq, List.flatMap_cons,
      List.flatMap_assoc]
    rw [List.perm_iff_count] at hout hcs hsplit ⊢
    intro x
    have h₁ := hout x
    have h₂ := hcs x
    have h₃ := hsplit x
    simp only [List.count_append] at h₁ h₂ h₃ ⊢
    omega

/-! ## Top theorem -/

/-- **Each export is answered for once.**  The reports on exports of a unit that is prepared are
those of its visits, and the forwarders in it or left to wait are those that it had and those of its
visits.  A visit makes neither if its node is no definition, or one that asks for no export.  A local
definition has an error on each of its exports; a method has one error on the first, or else an
error or a forwarder for each; and an object that comes to the rule for objects has an error on each
if it is private or not in a package, and none otherwise.  That the result has no shorthands left is
not needed for any of this. -/
theorem exports_answered_once (ds : List Declaration) (options : Options) (a : Annotations)
    (t : Tree) (prepared : Prepared)
    (hok : (prepare (.declaring ds) options t a).1 = .ok prepared) :
    (prepared.report.filter (·.code.isExport)).Perm
        ((visits (.declaring ds) t .root).flatMap (exportErrors (.declaring ds) options a))
      ∧ (∃ s, Ends (transform (.declaring ds) options t .root) { annotations := a } prepared.tree s
          ∧ (prepared.tree.shown ++ awaiting s).Perm
            (((Env.declaring ds).live t).flatMap forwarderOutline
              ++ (visits (.declaring ds) t .root).flatMap fun v =>
                  (newForwarders (.declaring ds) options a v).flatMap Tree.shown))
      ∧ ∀ v ∈ visits (.declaring ds) t .root,
          (¬ v.1.node.isMemberDef ∨ (Env.declaring ds).exportsOf a v.1.symbol = [] →
            exportErrors (.declaring ds) options a v = []
              ∧ newForwarders (.declaring ds) options a v = [])
          ∧ (v.1.node.isMemberDef → ∀ s, (Env.declaring ds).table.get? v.1.symbol = some s →
            Answered (.declaring ds) options a v s) := by
  have henv := Env.installed_declaring ds
  refine ⟨?_, ?_, fun v _ => ⟨exportErrors_eq_nil, fun hdef s => answered options a v hdef⟩⟩
  · rw [report_of_prepare_eq_ok henv hok]
    exact perm_filter_log options a t .root
  · obtain ⟨s, hends, -, -⟩ := prepare_eq_ok_iff.1 hok
    exact ⟨s, hends, perm_of_ends henv hends rfl⟩

/-- The methods of `innerMethods`, a local value, and a private object. -/
def innerAndHidden : List Declaration :=
  innerMethods ++
    [⟨some 31, "v", .value [.localMod] .int⟩,
     ⟨some 29, "Hidden", .object [.privateMod] [Library.classTy Library.fresh.1.objectClass]⟩]

/-- The value and the object are exported too. -/
def hiddenExports : Annotations :=
  let asks (span : Span) : List Annotation := [{ symbol := some Library.fresh.1.jsExport, span }]
  (({ lists := methodExports.lists ++ #[[], [], []] } : Annotations).set (some 34)
    (asks ⟨51, 52⟩)).set (some 35) (asks ⟨60, 61⟩)

def innerAndHiddenUnit : Tree :=
  let one : Tree := { node := .literal (.int 1), span := ⟨54, 55⟩, ty := .int }
  let v : Tree := { node := .valDef one, span := ⟨52, 55⟩, symbol := some 34 }
  { node := .packageDef [innerUnit, { node := .block [v] one, span := ⟨51, 56⟩, ty := .int },
      objectTree 35 ⟨61, 70⟩ []]
    span := ⟨0, 70⟩, symbol := some 29 }

/-- The name with two underscores, the local value and the private object have an error each, and
the three other exports a forwarder. -/
theorem exports_answered_once_innerAndHidden : ∃ prepared s,
    (prepare (.declaring innerAndHidden) {} innerAndHiddenUnit hiddenExports).1 = .ok prepared
      ∧ ((prepared.report.filter (·.code.isExport)).map Diagnostic.mark).Perm
          [(.exportedUnderscores, some ⟨3, 4⟩), (.exportedLocal, some ⟨51, 52⟩),
           (.exportedPrivate, some ⟨60, 61⟩)]
      ∧ (prepared.tree.shown ++ awaiting s).Perm
          [("g", .method, ⟨20, 21⟩, .method [] .int, some 33),
           ("first", .method, ⟨1, 2⟩, .method [] .int, some 31),
           ("second", .method, ⟨5, 6⟩, .method [] .int, some 31)] := by
  have hok : (prepare (.declaring innerAndHidden) {} innerAndHiddenUnit hiddenExports).1.isOk := by
    decide +kernel
  obtain ⟨prepared, hprepared⟩ := exists_prepared hok
  obtain ⟨herrors, ⟨s, -, hforwarders⟩, -⟩ :=
    exports_answered_once innerAndHidden {} hiddenExports innerAndHiddenUnit prepared hprepared
  refine ⟨prepared, s, hprepared, (herrors.map Diagnostic.mark).trans (List.Perm.of_eq ?_),
    hforwarders.trans (List.Perm.of_eq ?_)⟩
  · decide +kernel
  · decide +kernel

end Pass

end Interop
