import Interop.Proofs.Markers
import Interop.Proofs.Members
import Interop.Proofs.NamedCalls

/-!
# Warnings on factory calls

A factory call without a name, or with a null name, is warned about where it stands, unless that is
in the enumeration class.  The definition of a value is named first, and the call with its name is
no call to warn about; typing makes no other call a factory call.  So the warnings of a unit can be
read off its source,

    warnings of a run  =  the warnings at its visits  =  those at the sites of the tree

where the sites are the nodes outside type tokens, and no warning is at a call that gets its name.
-/

namespace Interop

open Diagnostic (Code)

/-! ## Algorithm -/

/-- The nodes outside type tokens, each with all the nodes around it, the innermost first. -/
def Env.sites (env : Env) (t : Tree) : List (Tree × List Tree) := env.nested (fun _ => true) [] t

/-- What the report is about and where. -/
def Diagnostic.mark (d : Diagnostic) : Code × Option Span := (d.code, d.primarySpan?)

namespace Pass

variable (env : Env)

/-- The warning on a node that stands in the scope. -/
def warning? (v : Tree × Scope) : Option (Code × Option Span) :=
  if v.2.inEnumImpl then none
  else if env.isUnnamedCall v.1 then some (.unnamedValue, some v.1.span)
  else if env.isNullNamedCall v.1 then some (.nullValueName, some v.1.span)
  else none

/-- The node is the definition of a value, and stands where it gets its name. -/
def isNamed (v : Tree × List Tree) : Bool :=
  (scopeWithin env v.2).inEnumSubclass && env.isUnnamedValueDef v.1

/-- The innermost node around is the definition of a value that gets its name. -/
def isNamedIn : List Tree → Bool
  | [] => false
  | d :: outer => isNamed env (d, outer)

/-- The warning on a node with the nodes around it. -/
def siteWarning? (v : Tree × List Tree) : Option (Code × Option Span) :=
  if isNamedIn env v.2 then none else warning? env (v.1, scopeWithin env v.2)

/-- The warnings on a tree and below it, with the nodes around the tree. -/
def siteWarnings (outer : List Tree) (t : Tree) : List (Code × Option Span) :=
  (env.nested (fun _ => true) outer t).filterMap (siteWarning? env)

/-! ## Rules that warn -/

variable {env} {options : Options} {a : Annotations} {t t' : Tree} {scope : Scope}
  {outer outer' : List Tree}

/-- The warnings on entering a node. -/
theorem map_mark_opened (options : Options) (a : Annotations) (t : Tree) (scope : Scope) :
    ((opened env options a t scope).2.report.filter (·.code.isWarning)).map Diagnostic.mark
      = (warning? env (t, scope)).toList := by
  by_cases h₁ : Rule.find? env t scope = some .unnamedCall
  · obtain ⟨hscope, hcall⟩ := Rule.find?_eq_unnamedCall_iff.1 h₁
    simp only [warning?, hscope, hcall, opened, opening, h₁]
    rfl
  · by_cases h₂ : Rule.find? env t scope = some .nullNamedCall
    · obtain ⟨hscope, hunnamed, hcall⟩ := Rule.find?_eq_nullNamedCall_iff.1 h₂
      simp only [warning?, hscope, hunnamed, hcall, opened, opening, h₂]
      rfl
    · have hnone : warning? env (t, scope) = none := by
        rw [Rule.find?_eq_unnamedCall_iff] at h₁
        rw [Rule.find?_eq_nullNamedCall_iff] at h₂
        unfold warning?
        grind
      rw [hnone, List.filter_eq_nil_iff.2 ?_]
      · rfl
      · intro d hd
        obtain ⟨rule, hfind, hreports⟩ := exists_rule_of_mem_report_opened hd
        rw [hfind] at h₁ h₂
        cases rule with
        | unnamedCall | nullNamedCall => contradiction
        | _ =>
          revert hreports
          cases d.code <;>
            simp [Rule.reports, Code.isExport, Code.isTypeToken, Code.isStructure, Code.isWarning]

/-- **The warnings of a run** are those at its visits. -/
theorem map_mark_log (options : Options) (a : Annotations) (t : Tree) (scope : Scope) :
    ((reports (log env options a t scope)).filter (·.code.isWarning)).map Diagnostic.mark
      = (visits env t scope).filterMap (warning? env) := by
  induction t, scope using parts_induction env with
  | h t scope ih =>
    have hclosing : (closingReport env a t).filter (·.code.isWarning) = [] := by
      rw [List.filter_eq_nil_iff]
      intro d hd
      have hexport := isExport_of_mem_closingReport hd
      revert hexport
      cases d.code <;> simp [Code.isExport, Code.isWarning]
    rw [reports_log_eq, visits_eq, List.filter_append, List.filter_append, hclosing,
      List.append_nil, List.map_append, map_mark_opened, List.filter_flatMap, List.map_flatMap,
      List.filterMap_cons, List.filterMap_flatMap, List.flatMap_congr ih]
    cases warning? env (t, scope) <;> rfl

/-! ## Calls and typing -/

end Pass

namespace Typing

variable {env : Env} {t t' : Tree}

theorem calleeSymbol_of_apply {callee : Tree} {args : List Tree} (ht : t.node = .apply callee args) :
    t.calleeSymbol = callee.calleeSymbol := by
  obtain ⟨node, _, _, _⟩ := t
  obtain rfl : node = _ := ht
  rfl

/-- **Typing makes no call a factory call**, and no factory call another call. -/
theorem calleeSymbol_of_assign_eq_ok (henv : env.Installed) (hfiled : env.table.Filed)
    {t t' : Tree} (h : assign env t = .ok t') : t'.calleeSymbol = t.calleeSymbol
      ∨ (t.calleeSymbol = none ∧ env.isFactory t'.calleeSymbol = false) := by
  refine assign_induction (motive := fun t t' => t'.calleeSymbol = t.calleeSymbol
    ∨ (t.calleeSymbol = none ∧ env.isFactory t'.calleeSymbol = false)) (fun _ _ => .inl rfl)
    (fun t cs symbol ty hty hassign hcs hr => ?_) h
  have htypable := isTypable_of_assign_eq_ok hassign hty
  have hsymbol : symbol = t.symbol ∨ (t.symbol = none ∧ env.isFactory symbol = false) := by
    refine (symbol_of_resolve_eq_ok hr).imp_right ?_
    rintro ⟨hnone, _, _, id, -, rfl, hid⟩
    exact ⟨hnone, isFactory_of_resolveMember henv hfiled hid⟩
  cases hnode : t.node with
  | apply callee args =>
    rw [Tree.children, hnode] at hcs
    obtain ⟨c, as, ⟨-, hc⟩, -, rfl⟩ := List.forall₂_cons_left_iff.1 hcs
    have happ : { t.withChildren (c :: as) with symbol, ty : Tree }.node = .apply c as := by
      simp [Tree.withChildren, hnode, Node.withChildren]
    rw [calleeSymbol_of_apply happ, calleeSymbol_of_apply hnode]
    exact hc
  | literal _ | select _ _ | ident _ | block _ _ =>
    obtain ⟨node, _, _, _⟩ := t
    obtain rfl : node = _ := hnode
    exact hsymbol
  | _ =>
    rw [hnode] at htypable
    cases htypable

theorem isNullLiteral_of_assign_eq_ok (h : assign env t = .ok t') :
    t'.isNullLiteral = t.isNullLiteral := by
  by_cases hty : t.ty = .noType
  · obtain ⟨cs, symbol, ty, -, -, rfl⟩ := (assign_eq_ok_iff_of_untyped hty).1 h
    obtain ⟨node, span, ty', symbol'⟩ := t
    cases node <;> rfl
  · rw [(assign_eq_ok_iff_of_typed hty).1 h]

/-- Typing leaves factory calls, with null names or without names, and makes no others. -/
theorem isFactoryCall_of_assign_eq_ok (henv : env.Installed) (hfiled : env.table.Filed)
    (h : assign env t = .ok t') : env.isUnnamedCall t' = env.isUnnamedCall t
      ∧ env.isNullNamedCall t' = env.isNullNamedCall t := by
  have hfactory : env.isUnnamedFactory t'.calleeSymbol = env.isUnnamedFactory t.calleeSymbol
      ∧ env.isNamedFactory t'.calleeSymbol = env.isNamedFactory t.calleeSymbol := by
    rcases calleeSymbol_of_assign_eq_ok henv hfiled h with heq | ⟨hnone, hnot⟩
    · rw [heq]
      exact ⟨rfl, rfl⟩
    · rw [Env.isFactory, Bool.or_eq_false_iff] at hnot
      rw [hnone, hnot.1, hnot.2]
      exact ⟨rfl, rfl⟩
  by_cases hty : t.ty = .noType
  · obtain ⟨cs, symbol, ty, hcs, -, rfl⟩ := (assign_eq_ok_iff_of_untyped hty).1 h
    unfold Env.isUnnamedCall Env.isNullNamedCall
    rw [hfactory.1, hfactory.2]
    cases hnode : t.node with
    | apply callee args =>
      rw [Tree.children, hnode] at hcs
      obtain ⟨c, as, -, has, rfl⟩ := List.forall₂_cons_left_iff.1 hcs
      have hnull : as.map (·.isNullLiteral) = args.map (·.isNullLiteral) := by
        rw [← List.forall₂_eq_eq_eq, List.forall₂_map_left_iff, List.forall₂_map_right_iff]
        exact has.flip.imp fun _ _ h => isNullLiteral_of_assign_eq_ok h
      have hlast : as.getLast?.any (·.isNullLiteral) = args.getLast?.any (·.isNullLiteral) := by
        simpa [Option.any_map] using congrArg (·.getLast?.any id) hnull
      simp [Tree.withChildren, hnode, Node.withChildren, hlast]
    | _ => simp [Tree.withChildren, hnode, Node.withChildren]
  · rw [(assign_eq_ok_iff_of_typed hty).1 h]
    exact ⟨rfl, rfl⟩

end Typing

namespace Pass

variable {env : Env} {options : Options} {t t' : Tree} {scope : Scope} {outer outer' : List Tree}

theorem warning?_of_assign_eq_ok (henv : env.Installed) (hfiled : env.table.Filed)
    (h : Typing.assign env t = .ok t') (hspan : t'.span = t.span) :
    warning? env (t', scope) = warning? env (t, scope) := by
  obtain ⟨hunnamed, hnull⟩ := Typing.isFactoryCall_of_assign_eq_ok henv hfiled h
  simp only [warning?, hunnamed, hnull, hspan]

/-! ## Sites -/

theorem siteWarnings_eq (env : Env) (outer : List Tree) (t : Tree) :
    siteWarnings env outer t = (siteWarning? env (t, outer)).toList
      ++ if env.isTypeToken t then [] else t.children.flatMap (siteWarnings env (t :: outer)) := by
  unfold siteWarnings
  rw [Env.nested_eq, List.filterMap_cons]
  have hbelow : (if env.isTypeToken t then []
        else t.children.flatMap (env.nested (fun _ => true) (t :: outer))).filterMap
          (siteWarning? env)
      = if env.isTypeToken t then [] else t.children.flatMap fun c =>
          (env.nested (fun _ => true) (t :: outer) c).filterMap (siteWarning? env) := by
    split
    next => rfl
    next => exact List.filterMap_flatMap
  rw [← hbelow]
  cases siteWarning? env (t, outer) <;> rfl

/-- Of the nodes around a tree only their scope counts, and whether the innermost one is the
definition of a value that gets its name. -/
theorem siteWarnings_congr {outer outer' : List Tree}
    (hscope : scopeWithin env outer' = scopeWithin env outer)
    (hnamed : isNamedIn env outer' = isNamedIn env outer) (t : Tree) :
    siteWarnings env outer' t = siteWarnings env outer t := by
  have hself : siteWarning? env (t, outer') = siteWarning? env (t, outer) := by
    simp only [siteWarning?, hscope, hnamed]
  have hbelow : ∀ c ∈ t.children,
      siteWarnings env (t :: outer') c = siteWarnings env (t :: outer) c := by
    intro c hc
    refine siteWarnings_congr ?_ ?_ c
    · show inner env t (scopeWithin env outer') = inner env t (scopeWithin env outer)
      rw [hscope]
    · simp only [isNamedIn, isNamed, hscope]
  rw [siteWarnings_eq, siteWarnings_eq, hself, List.flatMap_congr hbelow]
termination_by sizeOf t
decreasing_by exact Tree.sizeOf_lt_of_mem_children hc

theorem isUnnamedValueDef_eq_false_of_isTypable (ht : t.node.isTypable) :
    env.isUnnamedValueDef t = false := by
  rw [Bool.eq_false_iff]
  intro hvalue
  obtain ⟨_, _, _, hnode, -⟩ := Env.isUnnamedValueDef_iff.1 hvalue
  rw [hnode] at ht
  cases ht

/-- A node of a kind that the pass builds counts for nothing around others. -/
theorem siteWarnings_cons (ht : t.node.isTypable) (houter : isNamedIn env outer = false)
    (c : Tree) : siteWarnings env (t :: outer) c = siteWarnings env outer c := by
  refine siteWarnings_congr ?_ ?_ c
  · show inner env t (scopeWithin env outer) = scopeWithin env outer
    exact inner_of_not_isImplDef (by simp [isImplDef_of_isTypable t ht]) _
  · rw [houter, isNamedIn, isNamed, Bool.and_eq_false_iff]
    exact .inr (isUnnamedValueDef_eq_false_of_isTypable ht)

theorem siteWarnings_of_isTypable (ht : t.node.isTypable) (houter : isNamedIn env outer = false) :
    siteWarnings env outer t = (warning? env (t, scopeWithin env outer)).toList
      ++ t.children.flatMap (siteWarnings env outer) := by
  rw [siteWarnings_eq, isTypeToken_eq_false_of_isTypable ht, if_neg (by simp),
    List.flatMap_congr fun c _ => siteWarnings_cons ht houter c, siteWarning?, houter]
  rfl

/-- Typing changes no warnings. -/
theorem siteWarnings_of_assign_eq_ok (henv : env.Installed) (hfiled : env.table.Filed)
    (houter : isNamedIn env outer = false) {t t' : Tree} (h : Typing.assign env t = .ok t') :
    siteWarnings env outer t' = siteWarnings env outer t := by
  refine Typing.assign_induction
    (motive := fun t t' => siteWarnings env outer t' = siteWarnings env outer t) (fun _ _ => rfl)
    (fun t cs symbol ty hty hassign hcs _ => ?_) h
  have ht := Typing.isTypable_of_assign_eq_ok hassign hty
  rw [siteWarnings_of_isTypable (by rw [← ht]; exact Node.isTypable_withChildren _ _) houter,
    siteWarnings_of_isTypable ht houter, warning?_of_assign_eq_ok henv hfiled hassign rfl,
    Tree.children_of_withChildren hcs.length_eq.symm]
  exact congrArg _ (flatMap_congr_of_forall₂ hcs fun c _ c' hc => hc.2.symm).symm

/-- Only calls are warned about. -/
theorem warning?_eq_none (h : ∀ callee args, t.node ≠ .apply callee args) :
    warning? env (t, scope) = none := by
  have hunnamed : env.isUnnamedCall t = false := by
    unfold Env.isUnnamedCall
    split
    next callee args hnode => exact absurd hnode (h callee args)
    next => rfl
  have hnull : env.isNullNamedCall t = false := by
    unfold Env.isNullNamedCall
    split
    next callee args hnode => exact absurd hnode (h callee args)
    next => rfl
  simp [warning?, hunnamed, hnull]

/-- The warnings on a factory, which is no call, are those on what it is selected from. -/
theorem siteWarnings_factory (houter : isNamedIn env outer = false)
    (ht : t.node.isReference) :
    siteWarnings env outer t = t.children.flatMap (siteWarnings env outer) := by
  have hcall : ∀ callee args, t.node ≠ .apply callee args := by
    intro callee args hnode
    rw [hnode] at ht
    cases ht
  rw [siteWarnings_of_isTypable (isTypable_of_isReference ht) houter, warning?_eq_none hcall]
  rfl

/-- The warnings on a call that has its name are those on its parts. -/
theorem siteWarnings_typedNameCall (henv : env.Installed) (houter : isNamedIn env outer = false)
    {callee : Tree} (args : List Tree) (span : Span) (name : String)
    (hcallee : callee.node.isReference) :
    siteWarnings env outer (typedNameCall env callee args span name)
      = (callee.children ++ args).flatMap (siteWarnings env outer) := by
  have hcall : warning? env (typedNameCall env callee args span name, scopeWithin env outer)
      = none := by
    simp [warning?, isUnnamedCall_typedNameCall henv args span name hcallee,
      isNullNamedCall_typedNameCall]
  have hliteral : siteWarnings env outer { Tree.literal (.str name) span with ty := .str } = [] := by
    rw [siteWarnings_of_isTypable rfl houter, warning?_eq_none (by simp [Tree.literal])]
    rfl
  rw [siteWarnings_of_isTypable rfl houter, hcall]
  simp only [typedNameCall, Tree.children, Node.children, List.flatMap_cons, List.flatMap_append,
    List.flatMap_nil, hliteral, Option.toList_none, List.nil_append, List.append_nil]
  rw [siteWarnings_factory houter (by exact hcallee)]
  rfl

/-- The warnings on the definition of a value that gets its name are those on its parts. -/
theorem siteWarnings_valueDef (houter : isNamedIn env outer = false)
    (hnamed : isNamed env (t, outer)) {rhs callee : Tree} {args : List Tree}
    (ht : t.node = .valDef rhs) (hrhs : rhs.node = .apply callee args)
    (hcallee : callee.node.isReference) :
    siteWarnings env outer t = (callee.children ++ args).flatMap (siteWarnings env outer) := by
  have htoken : env.isTypeToken t = false := by
    rw [Bool.eq_false_iff]
    intro h
    obtain ⟨_, _, _, _, _, _, _, hnode, -⟩ := Env.isTypeToken_iff.1 h
    rw [ht] at hnode
    cases hnode
  have hscope : scopeWithin env (rhs :: t :: outer) = scopeWithin env outer := by
    show inner env rhs (inner env t (scopeWithin env outer)) = _
    rw [inner_of_not_isImplDef (by rw [hrhs]; simp [Node.isImplDef]),
      inner_of_not_isImplDef (by rw [ht]; simp [Node.isImplDef])]
  have hnot : isNamedIn env (rhs :: t :: outer) = isNamedIn env outer := by
    rw [houter, isNamedIn, isNamed, Bool.and_eq_false_iff]
    exact .inr (isUnnamedValueDef_eq_false_of_isTypable (by rw [hrhs]; rfl))
  -- the call itself is let pass
  have hcall : siteWarning? env (rhs, t :: outer) = none := if_pos hnamed
  rw [siteWarnings_eq, htoken, siteWarning?, houter, warning?_eq_none (by simp [ht]), Tree.children,
    ht]
  simp only [Node.children, List.flatMap_cons, List.flatMap_nil, List.append_nil]
  rw [siteWarnings_eq, isTypeToken_eq_false_of_isTypable (by rw [hrhs]; rfl), hcall, Tree.children,
    hrhs]
  have hbelow : siteWarnings env (rhs :: t :: outer) = siteWarnings env outer :=
    funext (siteWarnings_congr hscope hnot)
  simp only [Node.children, hbelow, List.flatMap_cons, List.flatMap_append]
  rw [siteWarnings_factory houter hcallee]
  rfl

/-- The warnings on a value that gets its name are those on its new definition. -/
theorem siteWarnings_of_enumValueDef (henv : env.Installed) (hfiled : env.table.Filed)
    (houter : isNamedIn env outer = false)
    (hfind : Rule.find? env t (scopeWithin env outer) = some .enumValueDef) {t' : Tree}
    (ht' : nameValueDef env t = .ok t') : siteWarnings env outer t
      = (parts env t (scopeWithin env outer)).flatMap (siteWarnings env outer) := by
  have hnamed := Rule.find?_eq_enumValueDef_iff.1 hfind
  obtain ⟨rhs, callee, args, qs, as, ht, hrhs, hcallee, hqs, has, rfl⟩ :=
    exists_of_nameValueDef henv hnamed.2 ht'
  have hparts : parts env t (scopeWithin env outer) = [typedNameCall env
      (callee.withChildren qs) as rhs.span (env.valueName t.symbol)] := by
    rw [parts_of_enumValueDef hfind]
    unfold named
    rw [ht']
    rfl
  -- typing keeps the warnings on what the factory is selected from and on the arguments
  have hsame := flatMap_congr_of_forall₂ (List.rel_append hqs has) fun c _ c' hc =>
    (siteWarnings_of_assign_eq_ok henv hfiled houter hc).symm
  rw [siteWarnings_valueDef houter (by rwa [isNamed, Bool.and_eq_true]) ht hrhs hcallee, hsame,
    hparts, List.flatMap_singleton,
    siteWarnings_typedNameCall henv houter as _ _ (by rwa [isReference_withChildren]),
    Tree.children_withChildren hqs.length_eq.symm]

/-- The warnings on a node that is not kept are that on it and those on its parts. -/
theorem siteWarnings_of_not_kept (henv : env.Installed) (hfiled : env.table.Filed)
    (houter : isNamedIn env outer = false) (hnot : ¬ Kept env t (scopeWithin env outer))
    (hname : Rule.find? env t (scopeWithin env outer) = some .enumValueDef →
      ∃ t', nameValueDef env t = .ok t') :
    siteWarnings env outer t = (warning? env (t, scopeWithin env outer)).toList
      ++ (parts env t (scopeWithin env outer)).flatMap (siteWarnings env outer) := by
  rcases stages_cases env t (scopeWithin env outer) with
    hkept | ⟨hfind, -⟩ | ⟨hfind, hvalue⟩ | ⟨hfind, callee, args, receiver, name, ht, hcallee⟩
      | ⟨hfind, receiver, name, ht⟩
  · exact absurd hkept hnot
  · rw [siteWarnings_eq, siteWarning?, houter, Rule.find?_eq_typeToken_iff.1 hfind,
      parts_of_typeToken hfind]
    rfl
  · obtain ⟨t', ht'⟩ := hname hfind
    obtain ⟨rhs, _, _, ht, -⟩ := Env.isUnnamedValueDef_iff.1 hvalue
    rw [siteWarnings_of_enumValueDef henv hfiled houter hfind ht', warning?_eq_none (by simp [ht])]
    rfl
  · have hreference : callee.node.isReference := by
      rw [hcallee]
      rfl
    rw [siteWarnings_of_isTypable (by rw [ht]; rfl) houter, parts_of_dynamicApply hfind ht hcallee,
      Tree.children, ht]
    simp only [Node.children, List.flatMap_cons]
    rw [siteWarnings_factory houter hreference, Tree.children, hcallee]
    simp [Node.children]
  · rw [siteWarnings_of_isTypable (by rw [ht]; rfl) houter, parts_of_dynamicSelect hfind ht,
      Tree.children, ht]
    rfl

/-- The warnings on a node that is kept are that on it and those on its children. -/
theorem siteWarnings_of_kept (houter : isNamedIn env outer = false)
    (hkept : Kept env t (scopeWithin env outer)) :
    isNamedIn env (t :: outer) = false
      ∧ siteWarnings env outer t = (warning? env (t, scopeWithin env outer)).toList
        ++ t.children.flatMap (siteWarnings env (t :: outer)) := by
  have htoken : env.isTypeToken t = false :=
    Bool.eq_false_iff.2 fun h => nomatch hkept _ (Rule.find?_eq_typeToken_iff.2 h)
  have hnamed : isNamedIn env (t :: outer) = false := by
    rw [Bool.eq_false_iff]
    intro h
    rw [isNamedIn, isNamed, Bool.and_eq_true] at h
    cases hkept _ (Rule.find?_eq_enumValueDef_iff.2 h)
  refine ⟨hnamed, ?_⟩
  rw [siteWarnings_eq, siteWarning?, houter, htoken]
  rfl

/-- **The warnings at the visits** are those at the sites. -/
theorem filterMap_visits_eq_siteWarnings (henv : env.Installed) (hfiled : env.table.Filed)
    {outer : List Tree} {t : Tree} {scope : Scope} (hscope : scope = scopeWithin env outer)
    (houter : isNamedIn env outer = false)
    (hnames : ∀ v ∈ visits env t scope, Rule.find? env v.1 v.2 = some .enumValueDef →
      ∃ t', nameValueDef env v.1 = .ok t') :
    (visits env t scope).filterMap (warning? env) = siteWarnings env outer t := by
  induction t, scope using parts_induction env generalizing outer with
  | h t scope ih =>
    have ih : ∀ c ∈ parts env t scope, ∀ outer', inner env t scope = scopeWithin env outer' →
        isNamedIn env outer' = false →
        (visits env c (inner env t scope)).filterMap (warning? env) = siteWarnings env outer' c :=
      fun c hc outer' hscope' houter' => ih c hc hscope' houter' fun v hv =>
        hnames v (visits_subset_of_mem_parts hc hv)
    have hvisits : (visits env t scope).filterMap (warning? env)
        = (warning? env (t, scope)).toList ++ (parts env t scope).flatMap fun c =>
          (visits env c (inner env t scope)).filterMap (warning? env) := by
      rw [visits_eq, List.filterMap_cons, List.filterMap_flatMap]
      cases warning? env (t, scope) <;> rfl
    rw [hvisits]
    subst hscope
    by_cases hkept : Kept env t (scopeWithin env outer)
    · obtain ⟨hnamed, hsites⟩ := siteWarnings_of_kept houter hkept
      rw [hsites, ← parts_of_kept hkept]
      exact congrArg _ (List.flatMap_congr fun c hc => ih c hc (t :: outer) rfl hnamed)
    · rw [siteWarnings_of_not_kept henv hfiled houter hkept
        (hnames _ (mem_visits_self env t (scopeWithin env outer)))]
      exact congrArg _ (List.flatMap_congr fun c hc =>
        ih c hc outer (inner_of_not_kept hkept) houter)

end Pass

end Interop
