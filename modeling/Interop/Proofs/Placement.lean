import Interop.Proofs.Nesting
import Interop.Proofs.Verdicts

/-!
# Where declarations may stand

What the scope of a declaration says of the declarations around it:

    inJsAny         one of them extends the marker type
    jsAnyClassOnly  none is a class that extends it, and `hostClass` is not set
    hostClass       only if one is an ordinary class; it is set by an ordinary class that stands
                    in no declaration extending the marker type

So in a class that extends the marker type nothing is declared, and in an object that does only
classes that do.  In an ordinary class no declaration extends the marker type.  The enumeration
class sets no `hostClass`, so this does not hold of its body.
-/

namespace Interop

namespace Scope

variable (s t : Scope)

@[simp] theorem inJsAny_enter : (s.enter t).inJsAny = (s.inJsAny || t.inJsAny) := by
  unfold inJsAny enter
  cases s.jsAnyClass <;> cases t.jsAnyClass <;> simp

@[simp] theorem hostClass_enter : (s.enter t).hostClass = (s.hostClass || t.hostClass) := rfl

@[simp] theorem jsAnyClassOnly_enter :
    (s.enter t).jsAnyClassOnly = (s.jsAnyClassOnly && t.jsAnyClassOnly) := by
  unfold jsAnyClassOnly allowJsAny enter
  cases s.jsAnyClass <;> cases t.jsAnyClass <;> cases s.hostClass <;> simp

end Scope

theorem Node.isImplDef_of_isClassDef {α : Type} {n : Node α} (h : n.isClassDef) : n.isImplDef := by
  cases n <;> simp [isClassDef, isImplDef] at h ⊢

namespace Pass

variable {env : Env} {o : Tree} {scope : Scope} {outer : List Tree}

/-! ## What one declaration opens -/

theorem inner_of_find? {rule : Rule} (hfind : Rule.find? env o scope = some rule) :
    inner env o scope = scope.enter (rule.opens o) := by
  unfold inner
  rw [hfind]

/-- Every declaration has its rule. -/
theorem exists_find? (env : Env) (ho : o.node.isImplDef) (scope : Scope) :
    ∃ rule, Rule.find? env o scope = some rule := by
  rw [← Option.isSome_iff_exists, Rule.find?_eq_candidates, List.find?_isSome]
  cases hnode : o.node with
  | classDef body => exact ⟨.hostClass, by simp [Rule.candidates], by simp [Rule.applies, hnode,
      Node.isClassDef]⟩
  | objectDef body => exact ⟨.object, by simp [Rule.candidates], by simp [Rule.applies, hnode,
      Node.isObjectDef]⟩
  | _ =>
    rw [hnode] at ho
    cases ho

/-- The body of a declaration is in the body of one that extends the marker type if it stands in
one, or extends it itself. -/
theorem inJsAny_inner (ho : o.node.isImplDef) (scope : Scope) :
    (inner env o scope).inJsAny = (scope.inJsAny || env.isJsAny o.symbol) := by
  obtain ⟨rule, hfind⟩ := exists_find? env ho scope
  have happ := Rule.applies_of_find?_eq_some hfind
  rw [inner_of_find? hfind, Scope.inJsAny_enter]
  by_cases hjs : env.isJsAny o.symbol
  · rcases Rule.find?_of_isJsAny ho hjs scope with h | h | h
    all_goals
      rw [hfind] at h
      cases h
      rw [hjs]
    · simp only [Rule.opens]
      split <;> simp [Scope.inJsAny]
    · -- it is refused, as it stands in the body of one
      simp only [Rule.applies, Scope.allowImplDef, Bool.and_eq_true, Bool.not_not] at happ
      simp [happ.2]
    · simp only [Rule.opens]
      split <;> simp [Scope.inJsAny]
  · cases rule <;> simp [Rule.applies, hjs, Rule.opens, Scope.inJsAny, Scope.root] at happ ⊢

/-- After a class that extends the marker type, no other such class is expected. -/
theorem jsAnyClassOnly_inner (ho : o.node.isClassDef) (hjs : env.isJsAny o.symbol)
    (scope : Scope) : (inner env o scope).jsAnyClassOnly = false := by
  have hobject : o.node.isObjectDef = false := by
    cases hnode : o.node <;> simp [hnode, Node.isClassDef, Node.isObjectDef] at ho ⊢
  cases honly : scope.jsAnyClassOnly with
  | true =>
    -- its rule is the first of all
    have hfind : Rule.find? env o scope = some .jsAnyClass := by
      unfold Rule.find? Rule.all
      rw [List.find?_cons_of_pos (by simp [Rule.applies, ho, honly, hjs])]
    rw [inner_of_find? hfind, Scope.jsAnyClassOnly_enter, honly]
    simp [Rule.opens, hobject, Scope.jsAnyClassOnly]
  | false =>
    obtain ⟨rule, hfind⟩ := exists_find? env (Node.isImplDef_of_isClassDef ho) scope
    rw [inner_of_find? hfind, Scope.jsAnyClassOnly_enter, honly, Bool.false_and]

/-- An ordinary class other than the enumeration class shuts out what extends the marker type, if it
does not stand in the body of something that does. -/
theorem hostClass_inner (ho : o.node.isClassDef) (hjs : ¬ env.isJsAny o.symbol)
    (henum : o.symbol ≠ some env.lib.enumeration) (hscope : scope.inJsAny = false) :
    (inner env o scope).hostClass := by
  obtain ⟨rule, hfind⟩ := exists_find? env (Node.isImplDef_of_isClassDef ho) scope
  have happ := Rule.applies_of_find?_eq_some hfind
  have hmem := Rule.mem_candidates_of_find?_eq_some hfind
  rw [inner_of_find? hfind, Scope.hostClass_enter]
  cases hnode : o.node with
  | classDef body =>
    rw [hnode] at hmem
    cases rule <;>
      simp [Rule.candidates, Rule.applies, Rule.opens, hjs, henum, hscope,
        Scope.allowImplDef] at hmem happ ⊢
  | _ =>
    rw [hnode] at ho
    cases ho

/-! ## What the declarations around a place open -/

theorem inJsAny_scopeWithin (env : Env) (houter : ∀ o ∈ outer, o.node.isImplDef) :
    (scopeWithin env outer).inJsAny = outer.any (env.isJsAny ·.symbol) := by
  induction outer with
  | nil => rfl
  | cons o outer ih =>
    show (inner env o (scopeWithin env outer)).inJsAny = _
    rw [inJsAny_inner (houter o (.head _)), ih fun o ho => houter o (.tail _ ho), List.any_cons,
      Bool.or_comm]

/-- Declarations inside of others only add to the scope. -/
theorem exists_scopeWithin_append (env : Env) (before outer : List Tree) :
    ∃ s, scopeWithin env (before ++ outer) = (scopeWithin env outer).enter s := by
  induction before with
  | nil => exact ⟨.root, (Scope.enter_root _).symm⟩
  | cons o before ih =>
    obtain ⟨s, hs⟩ := ih
    show ∃ s, inner env o (scopeWithin env (before ++ outer)) = _
    rw [hs]
    unfold inner
    split
    next => exact ⟨s, rfl⟩
    next rule _ => exact ⟨s.enter (rule.opens o), Scope.enter_assoc _ _ _⟩

theorem jsAnyClassOnly_scopeWithin (ho : o ∈ outer) (hclass : o.node.isClassDef)
    (hjs : env.isJsAny o.symbol) : (scopeWithin env outer).jsAnyClassOnly = false := by
  obtain ⟨before, around, rfl⟩ := List.append_of_mem ho
  obtain ⟨s, hs⟩ := exists_scopeWithin_append env before (o :: around)
  have hinner : (scopeWithin env (o :: around)).jsAnyClassOnly = false :=
    jsAnyClassOnly_inner hclass hjs _
  rw [hs, Scope.jsAnyClassOnly_enter, hinner, Bool.false_and]

theorem hostClass_scopeWithin {before around : List Tree} (hclass : o.node.isClassDef)
    (hjs : ¬ env.isJsAny o.symbol) (henum : o.symbol ≠ some env.lib.enumeration)
    (haround : (scopeWithin env around).inJsAny = false) :
    (scopeWithin env (before ++ o :: around)).hostClass := by
  obtain ⟨s, hs⟩ := exists_scopeWithin_append env before (o :: around)
  have hinner : (scopeWithin env (o :: around)).hostClass :=
    hostClass_inner hclass hjs henum haround
  rw [hs, Scope.hostClass_enter, hinner, Bool.true_or]

/-! ## Refusals -/

/-- In the body of something that extends the marker type every declaration is refused, other than
a class that is expected there. -/
theorem find?_eq_innerDef (ho : o.node.isImplDef) (hscope : scope.inJsAny)
    (hclass : ¬ (o.node.isClassDef ∧ scope.jsAnyClassOnly ∧ env.isJsAny o.symbol)) :
    Rule.find? env o scope = some .innerDef := by
  have hfirst : Rule.jsAnyClass.applies env o scope = false := by
    rw [Bool.eq_false_iff]
    simpa [Rule.applies, and_assoc] using hclass
  have hsecond : Rule.innerDef.applies env o scope := by
    simp [Rule.applies, ho, Scope.allowImplDef, hscope]
  unfold Rule.find? Rule.all
  rw [List.find?_cons_of_neg (by simp [hfirst]), List.find?_cons_of_pos hsecond]

/-- In an ordinary class a declaration that extends the marker type is refused or is misplaced. -/
theorem find?_eq_innerDef_or_isMisplaced (ho : o.node.isImplDef) (hjs : env.isJsAny o.symbol)
    (hscope : scope.hostClass)
    (hlambda : ¬ env.isLambdaAdapter (env.table.typeSymbolOf o.symbol)) :
    Rule.find? env o scope = some .innerDef
      ∨ Rule.find? env o scope = some .jsAnyDef
        ∧ env.isMisplaced (env.table.typeSymbolOf o.symbol) o.node.isObjectDef scope := by
  rcases Rule.find?_of_isJsAny ho hjs scope with hfind | hfind | hfind
  · have happ := Rule.applies_of_find?_eq_some hfind
    simp [Rule.applies, Scope.jsAnyClassOnly, Scope.allowJsAny, hscope] at happ
  · exact .inl hfind
  · refine .inr ⟨hfind, ?_⟩
    simp [Env.isMisplaced, Scope.allowJsAny, Scope.jsAnyClassOnly, hscope, hlambda]

theorem insideClass_mem_structuralProblems (henv : env.Installed) (hjs : env.isJsAny o.symbol)
    (h : env.isMisplaced (env.table.typeSymbolOf o.symbol) o.node.isObjectDef scope) :
    .insideClass ∈ (env.structuralProblems o scope).map (·.code) := by
  obtain ⟨id, hid, hlt⟩ := henv.exists_of_isJsAny hjs
  have hget : ∃ s, env.table.get? (env.table.typeSymbolOf o.symbol) = some s := by
    rw [hid]
    exact ⟨_, by rw [SymbolTable.get?, Option.bind_some, Array.getElem?_eq_getElem hlt]; rfl⟩
  obtain ⟨s, hget⟩ := hget
  unfold Env.structuralProblems
  simp only [hget, List.map_append, List.mem_append]
  exact .inl (.inr (by simp [h]))

/-- No other rule refuses a declaration. -/
theorem find?_eq_innerDef_of_mem_report_opened {options : Options} {a : Annotations}
    {d : Diagnostic} (hd : d ∈ (opened env options a o scope).2.report)
    (hcode : d.code = .innerDeclaration) : Rule.find? env o scope = some .innerDef := by
  by_contra hfind
  by_cases hjs : Rule.find? env o scope = some .jsAnyClass ∨ Rule.find? env o scope = some .jsAnyDef
  · rw [report_opened_of_jsAny hjs] at hd
    obtain ⟨p, hp, rfl⟩ := List.mem_map.1 hd
    have hproblem : p.code = .innerDeclaration := hcode
    unfold Env.structuralProblems at hp
    simp only at hp
    split at hp
    next => cases hp
    next s _ =>
      simp only [List.mem_append, List.mem_map] at hp
      grind
  · obtain ⟨h₁, h₂⟩ := not_or.1 hjs
    refine not_isStructure_of_mem_report_opened h₁ h₂ hfind hd ?_
    rw [hcode]
    rfl

/-! ## Top theorems -/

section

variable {ds : List Declaration} {options : Options} {a : Annotations} {t : Tree}
  {prepared : Prepared}

/-- A declaration is visited in the scope that those around it make. -/
theorem mem_visits_of_mem_nested {v : Tree × List Tree}
    (hv : v ∈ env.nested (·.node.isImplDef) [] t) (hdef : v.1.node.isImplDef) :
    (v.1, scopeWithin env v.2) ∈ visits env t .root := by
  have hmem : (v.1, scopeWithin env v.2)
      ∈ (visits env t (scopeWithin env [])).filter (·.1.node.isImplDef) := by
    rw [filter_visits_nested isImplDef_of_isTypable env [] t]
    exact List.mem_map_of_mem (List.mem_filter.2 ⟨hv, hdef⟩)
  exact (List.mem_filter.1 hmem).1

/-- What is around a declaration are declarations. -/
theorem isImplDef_of_mem_nested {v : Tree × List Tree}
    (hv : v ∈ env.nested (·.node.isImplDef) [] t) : ∀ o ∈ v.2, o.node.isImplDef :=
  fun _ ho => ((Env.of_mem_nested hv ho).resolve_left (by simp)).1

/-- A refused declaration is reported once, and leaves no marker. -/
theorem refused_of_find? (henv : env.Installed)
    (hspans : ((declarations env t).map (·.span)).Nodup)
    (hok : (prepare env options t a).1 = .ok prepared) {v : Tree × List Tree}
    (hv : v ∈ env.nested (·.node.isImplDef) [] t) (hdef : v.1.node.isImplDef)
    (hfind : Rule.find? env v.1 (scopeWithin env v.2) = some .innerDef) :
    (structureReports prepared.report v.1).map (·.code) = [.innerDeclaration]
      ∧ Unmarked env t v.1 a (prepare env options t a).2 := by
  have hvisit := mem_visits_of_mem_nested hv hdef
  constructor
  · obtain ⟨d, hreport, hcode, -⟩ := report_opened_of_innerDef options a hfind
    rw [structureReports_of_prepare_eq_ok henv hspans hok hvisit hdef, hreport]
    simp [hcode, Diagnostic.Code.isStructure]
  · refine unmarked_of_not_accepts henv hspans options a hvisit hdef fun haccepts => ?_
    rcases (accepts_iff.1 haccepts).1 with h | h
    all_goals
      rw [hfind] at h
      cases h

/-- **In the bodies of what extends the marker type.**  When a unit is prepared, every declaration
with a class around it that extends the marker type gets one report on its structure, which refuses
it, and leaves no marker; so does every declaration with such an object around it, other than a
class that extends the marker type itself.  No other declaration is refused, unless something
around it extends the marker type.  Declarations are told apart by their places.  All this is so of
any run that ends, whatever it leaves over. -/
theorem refused_in_jsAny (ds : List Declaration) (options : Options) (a : Annotations) (t : Tree)
    (prepared : Prepared)
    (hspans : ((declarations (.declaring ds) t).map (·.span)).Nodup)
    (hok : (prepare (.declaring ds) options t a).1 = .ok prepared) :
    ∀ v ∈ (Env.declaring ds).nested (·.node.isImplDef) [] t, v.1.node.isImplDef →
      ((∃ o ∈ v.2, o.node.isClassDef ∧ (Env.declaring ds).isJsAny o.symbol)
          ∨ (∃ o ∈ v.2, o.node.isObjectDef ∧ (Env.declaring ds).isJsAny o.symbol)
            ∧ ¬ (v.1.node.isClassDef ∧ (Env.declaring ds).isJsAny v.1.symbol) →
        (structureReports prepared.report v.1).map (·.code) = [.innerDeclaration]
          ∧ Unmarked (.declaring ds) t v.1 a (prepare (.declaring ds) options t a).2)
      ∧ ((∀ o ∈ v.2, ¬ (Env.declaring ds).isJsAny o.symbol) →
        .innerDeclaration ∉ (structureReports prepared.report v.1).map (·.code)) := by
  have henv := Env.installed_declaring ds
  intro v hv hdef
  have hscope := inJsAny_scopeWithin (.declaring ds) (isImplDef_of_mem_nested hv)
  constructor
  · rintro (⟨o, ho, hclass, hjs⟩ | ⟨⟨o, ho, -, hjs⟩, hnot⟩)
    all_goals
      refine refused_of_find? henv hspans hok hv hdef (find?_eq_innerDef hdef ?_ ?_)
    · rw [hscope, List.any_eq_true]
      exact ⟨o, ho, hjs⟩
    · rw [jsAnyClassOnly_scopeWithin ho hclass hjs]
      simp
    · rw [hscope, List.any_eq_true]
      exact ⟨o, ho, hjs⟩
    · exact fun h => hnot ⟨h.1, h.2.2⟩
  · intro hnone hmem
    have hvisit := mem_visits_of_mem_nested hv hdef
    rw [structureReports_of_prepare_eq_ok henv hspans hok hvisit hdef] at hmem
    obtain ⟨d, hd, hcode⟩ := List.mem_map.1 hmem
    have hfind := find?_eq_innerDef_of_mem_report_opened (List.mem_filter.1 hd).1 hcode
    have happ := Rule.applies_of_find?_eq_some hfind
    simp only [Rule.applies, Scope.allowImplDef, Bool.and_eq_true, Bool.not_not, hscope,
      List.any_eq_true] at happ
    obtain ⟨o, ho, hjs⟩ := happ.2
    exact hnone o ho hjs

/-- A trait that extends the marker type, with an object in it and a trait in that, and an object
that extends it, with an ordinary class in it. -/
def facades : List Declaration :=
  let jsAny := Library.classTy Library.fresh.1.jsAny
  [⟨some SymbolTable.root, "app", .package⟩,
   ⟨some 29, "Facade", .classDef true [] [jsAny]⟩,
   ⟨some 30, "Tools", .object [] [jsAny]⟩,
   ⟨some 32, "Hammer", .classDef true [] [jsAny]⟩,
   ⟨some 29, "Native", .object [] [jsAny]⟩,
   ⟨some 35, "Helper", .classDef false [] []⟩]

def facadeUnit : Tree :=
  { node := .packageDef
      [classTree 30 ⟨0, 20⟩ [objectTree 31 ⟨5, 15⟩ [classTree 33 ⟨7, 12⟩ []]],
       objectTree 34 ⟨30, 40⟩ [classTree 36 ⟨33, 38⟩ []]]
    span := ⟨0, 40⟩, symbol := some 29 }

/-- Below an object in a trait, a trait is refused like an ordinary class in an object. -/
theorem refused_in_jsAny_facades : ∃ prepared,
    (prepare (.declaring facades) {} facadeUnit (.blank 37)).1 = .ok prepared
      ∧ (structureReports prepared.report (classTree 33 ⟨7, 12⟩ [])).map (·.code)
          = [.innerDeclaration]
      ∧ (structureReports prepared.report (classTree 36 ⟨33, 38⟩ [])).map (·.code)
          = [.innerDeclaration] := by
  have hok : (prepare (.declaring facades) {} facadeUnit (.blank 37)).1.isOk := by decide +kernel
  obtain ⟨prepared, hprepared⟩ := exists_prepared hok
  have hrefused := refused_in_jsAny facades {} (.blank 37) facadeUnit prepared (by decide +kernel)
    hprepared
  let hammer := classTree 33 ⟨7, 12⟩ []
  let tools := objectTree 31 ⟨5, 15⟩ [hammer]
  let facade := classTree 30 ⟨0, 20⟩ [tools]
  let helper := classTree 36 ⟨33, 38⟩ []
  let native := objectTree 34 ⟨30, 40⟩ [helper]
  have hhammer : (hammer, [tools, facade])
      ∈ (Env.declaring facades).nested (·.node.isImplDef) [] facadeUnit := by
    simp [facadeUnit, Env.nested_eq, Env.isTypeToken, classTree, objectTree, Tree.children,
      Node.children, Node.isImplDef, hammer, tools, facade]
  have hhelper : (helper, [native])
      ∈ (Env.declaring facades).nested (·.node.isImplDef) [] facadeUnit := by
    simp [facadeUnit, Env.nested_eq, Env.isTypeToken, classTree, objectTree, Tree.children,
      Node.children, Node.isImplDef, helper, native]
  refine ⟨prepared, hprepared, ?_, ?_⟩
  · exact ((hrefused _ hhammer rfl).1 (.inl ⟨facade, by simp, rfl, by decide +kernel⟩)).1
  · exact ((hrefused _ hhelper rfl).1
      (.inr ⟨⟨native, by simp, rfl, by decide +kernel⟩, by decide +kernel⟩)).1

/-! ## In ordinary classes -/

/-- The declaration is refused or misplaced, and leaves no marker. -/
def KeptOut (env : Env) (t : Tree) (a b : Annotations) (r : Report) (d : Tree) : Prop :=
  (.insideClass ∈ (structureReports r d).map (·.code)
      ∨ .innerDeclaration ∈ (structureReports r d).map (·.code))
    ∧ Unmarked env t d a b

theorem keptOut_of_find? (henv : env.Installed)
    (hspans : ((declarations env t).map (·.span)).Nodup)
    (hok : (prepare env options t a).1 = .ok prepared) {v : Tree × List Tree}
    (hv : v ∈ env.nested (·.node.isImplDef) [] t) (hdef : v.1.node.isImplDef)
    (hfind : Rule.find? env v.1 (scopeWithin env v.2) = some .innerDef) :
    KeptOut env t a (prepare env options t a).2 prepared.report v.1 := by
  obtain ⟨hcodes, hunmarked⟩ := refused_of_find? henv hspans hok hv hdef hfind
  exact ⟨.inr (by rw [hcodes]; exact .head _), hunmarked⟩

theorem keptOut_of_hostClass (henv : env.Installed)
    (hspans : ((declarations env t).map (·.span)).Nodup)
    (hok : (prepare env options t a).1 = .ok prepared) {v : Tree × List Tree}
    (hv : v ∈ env.nested (·.node.isImplDef) [] t) (hdef : v.1.node.isImplDef)
    (hjs : env.isJsAny v.1.symbol)
    (hlambda : ¬ env.isLambdaAdapter (env.table.typeSymbolOf v.1.symbol))
    (hscope : (scopeWithin env v.2).hostClass) :
    KeptOut env t a (prepare env options t a).2 prepared.report v.1 := by
  rcases find?_eq_innerDef_or_isMisplaced hdef hjs hscope hlambda with hfind | ⟨hfind, hmisplaced⟩
  · exact keptOut_of_find? henv hspans hok hv hdef hfind
  · have hvisit := mem_visits_of_mem_nested hv hdef
    have hproblem := insideClass_mem_structuralProblems henv hjs hmisplaced
    constructor
    · left
      rw [structureReports_of_prepare_eq_ok henv hspans hok hvisit hdef,
        report_opened_of_jsAny (.inr hfind)]
      obtain ⟨p, hp, hcode⟩ := List.mem_map.1 hproblem
      refine List.mem_map.2 ⟨p.diagnostic v.1.span, ?_, hcode⟩
      exact List.mem_filter.2 ⟨List.mem_map_of_mem hp, isStructure_of_mem_structuralProblems hp⟩
    · refine unmarked_of_not_accepts henv hspans options a hvisit hdef fun haccepts => ?_
      rw [(accepts_iff.1 haccepts).2] at hproblem
      cases hproblem

/-- **In ordinary classes.**  When a unit is prepared, every declaration that extends the marker
type and has an ordinary class around it, other than the enumeration class, is refused or misplaced
and leaves no marker, if it is an object, or has also a class around it that extends the marker
type, or nothing around the ordinary class does.  Lambda adapters may stand anywhere.  As above
nothing depends on what is left over. -/
theorem keptOut_of_ordinary (ds : List Declaration) (options : Options) (a : Annotations) (t : Tree)
    (prepared : Prepared)
    (hspans : ((declarations (.declaring ds) t).map (·.span)).Nodup)
    (hok : (prepare (.declaring ds) options t a).1 = .ok prepared) :
    ∀ v ∈ (Env.declaring ds).nested (·.node.isImplDef) [] t, v.1.node.isImplDef →
      (Env.declaring ds).isJsAny v.1.symbol →
      ¬ (Env.declaring ds).isLambdaAdapter ((Env.declaring ds).table.typeSymbolOf v.1.symbol) →
      ∀ before o around, v.2 = before ++ o :: around → o.node.isClassDef →
      ¬ (Env.declaring ds).isJsAny o.symbol →
      o.symbol ≠ some (Env.declaring ds).lib.enumeration →
      (v.1.node.isObjectDef
        ∨ (∃ u ∈ v.2, u.node.isClassDef ∧ (Env.declaring ds).isJsAny u.symbol)
        ∨ ∀ u ∈ around, ¬ (Env.declaring ds).isJsAny u.symbol) →
      KeptOut (.declaring ds) t a (prepare (.declaring ds) options t a).2 prepared.report v.1 := by
  have henv := Env.installed_declaring ds
  intro v hv hdef hjs hlambda before o around houter hclass hordinary henum hplace
  have hdefs := isImplDef_of_mem_nested hv
  by_cases haround : ∀ u ∈ around, ¬ (Env.declaring ds).isJsAny u.symbol
  · -- the ordinary class is in force
    refine keptOut_of_hostClass henv hspans hok hv hdef hjs hlambda ?_
    rw [houter]
    refine hostClass_scopeWithin hclass hordinary henum ?_
    rw [inJsAny_scopeWithin _ fun u hu => hdefs u (by rw [houter]; simp [hu]), List.any_eq_false]
    exact haround
  · -- the ordinary class is refused itself, and so is what is in it
    push Not at haround
    obtain ⟨w, hw, hwjs⟩ := haround
    refine keptOut_of_find? henv hspans hok hv hdef (find?_eq_innerDef hdef ?_ ?_)
    · rw [inJsAny_scopeWithin _ hdefs, List.any_eq_true]
      exact ⟨w, by rw [houter]; simp [hw], hwjs⟩
    · rintro ⟨hclass, honly, -⟩
      rcases hplace with hobject | ⟨u, hu, huclass, hujs⟩ | hnone
      · cases hnode : v.1.node <;> simp [hnode, Node.isClassDef, Node.isObjectDef] at hclass hobject
      · rw [jsAnyClassOnly_scopeWithin hu huclass hujs] at honly
        cases honly
      · exact hnone w hw hwjs

/-- A trait that extends the marker type, in an ordinary class. -/
def shapeInHost : Tree := classTree 30 ⟨0, 20⟩ [classTree 31 ⟨10, 18⟩ []]

/-- The trait is kept out. -/
theorem keptOut_of_ordinary_host : ∃ prepared,
    (prepare (.declaring hostAndShape) {} shapeInHost (.blank 32)).1 = .ok prepared
      ∧ KeptOut (.declaring hostAndShape) shapeInHost (.blank 32)
          (prepare (.declaring hostAndShape) {} shapeInHost (.blank 32)).2 prepared.report
          (classTree 31 ⟨10, 18⟩ []) := by
  have hok : (prepare (.declaring hostAndShape) {} shapeInHost (.blank 32)).1.isOk := by
    decide +kernel
  obtain ⟨prepared, hprepared⟩ := exists_prepared hok
  have hshape : (classTree 31 ⟨10, 18⟩ [], [shapeInHost])
      ∈ (Env.declaring hostAndShape).nested (·.node.isImplDef) [] shapeInHost := by
    simp [Env.nested_eq, Env.isTypeToken, shapeInHost, classTree, Tree.children, Node.children,
      Node.isImplDef]
  exact ⟨prepared, hprepared, keptOut_of_ordinary hostAndShape {} (.blank 32) shapeInHost prepared
    (by decide +kernel) hprepared _ hshape rfl (by decide +kernel) (by decide +kernel) []
    shapeInHost [] rfl rfl (by decide +kernel) (by decide +kernel) (.inr (.inr (by simp)))⟩

/-- A class that extends the marker type, declared in the enumeration class. -/
def windowInEnumeration : List Declaration :=
  [⟨some SymbolTable.root, "app", .package⟩,
   ⟨some Library.fresh.1.enumeration, "Window",
     .classDef false [] [Library.classTy Library.fresh.1.jsObject]⟩]

/-- In the enumeration class, which does not extend the marker type, a class that does is neither
refused nor misplaced. -/
theorem not_keptOut_in_enumeration : ¬ ∀ (ds : List Declaration) (options : Options)
    (a : Annotations) (t : Tree) (prepared : Prepared),
    ((declarations (.declaring ds) t).map (·.span)).Nodup →
    (prepare (.declaring ds) options t a).1 = .ok prepared →
    ∀ v ∈ (Env.declaring ds).nested (·.node.isImplDef) [] t, v.1.node.isImplDef →
      (Env.declaring ds).isJsAny v.1.symbol →
      ¬ (Env.declaring ds).isLambdaAdapter ((Env.declaring ds).table.typeSymbolOf v.1.symbol) →
      (∃ o ∈ v.2, o.node.isClassDef ∧ ¬ (Env.declaring ds).isJsAny o.symbol) →
      KeptOut (.declaring ds) t a (prepare (.declaring ds) options t a).2 prepared.report v.1 := by
  intro h
  let window := classTree 30 ⟨2, 3⟩ []
  let enumeration := classTree Library.fresh.1.enumeration ⟨0, 9⟩ [window]
  have hok : (prepare (.declaring windowInEnumeration) {} enumeration (.blank 31)).1.isOk := by
    decide +kernel
  obtain ⟨prepared, hprepared⟩ := exists_prepared hok
  have hcodes : (prepare (.declaring windowInEnumeration) {} enumeration (.blank 31)).1.toOption.map
      (fun p => (structureReports p.report window).map (·.code)) = some [] := by
    decide +kernel
  rw [hprepared] at hcodes
  have hwindow : (window, [enumeration])
      ∈ (Env.declaring windowInEnumeration).nested (·.node.isImplDef) [] enumeration := by
    simp [Env.nested_eq, Env.isTypeToken, classTree, Tree.children, Node.children, Node.isImplDef,
      window, enumeration]
  have hkept := h windowInEnumeration {} (.blank 31) enumeration prepared (by decide +kernel)
    hprepared _ hwindow rfl (by decide +kernel) (by decide +kernel)
    ⟨enumeration, by simp, rfl, by decide +kernel⟩
  have hnone : (structureReports prepared.report window).map (·.code) = [] := Option.some.inj hcodes
  rcases hkept.1 with hcode | hcode
  all_goals
    rw [hnone] at hcode
    cases hcode

end

end Pass

end Interop
