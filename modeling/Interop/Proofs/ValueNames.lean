import Interop.Proofs.Declarations
import Interop.Proofs.Verdicts
import Interop.Proofs.Warnings

/-!
# Enumeration values are named or warned about

Where the name of an enumeration value is known its definition gets the name, and every other
factory call that finds its name by reflection is warned about, once.  Both can be read off the
sites of the source:

    value definitions that come out  ↔  value definitions at the sites, named where they are known
    warnings of the unit             =  warnings at the sites
-/

namespace Interop

/-! ## Algorithm -/

def Node.isValDef {α : Type} : Node α → Bool
  | valDef _ => true
  | _ => false

/-! ## Lemmas -/

@[simp] theorem Node.isValDef_shape {α : Type} (n : Node α) : n.shape.isValDef = n.isValDef := by
  cases n <;> rfl

theorem Node.isDeclaration_of_isValDef {α : Type} {n : Node α} (h : n.isValDef) :
    n.isDeclaration := by
  cases n <;> simp [isValDef, isDeclaration] at h ⊢

theorem isValDef_of_isTypable (t : Tree) (ht : t.node.isTypable) : t.node.isValDef = false := by
  cases hnode : t.node <;> simp [hnode, Node.isTypable, Node.isValDef] at ht ⊢

namespace Pass

variable {env : Env} {options : Options} {t u : Tree} {scope : Scope} {s s' : State} {out : Tree}

/-- The scope at a site is made of the declarations around it. -/
theorem map_scopeWithin_nested {outer outer' : List Tree}
    (h : scopeWithin env outer = scopeWithin env outer') (t : Tree) :
    ((env.nested (fun _ => true) outer t).map fun v => (v.1, scopeWithin env v.2))
      = (env.nested (·.node.isImplDef) outer' t).map fun v => (v.1, scopeWithin env v.2) := by
  have hbelow : ∀ c ∈ t.children,
      ((env.nested (fun _ => true) (t :: outer) c).map fun v => (v.1, scopeWithin env v.2))
        = (env.nested (·.node.isImplDef) (if t.node.isImplDef then t :: outer' else outer') c).map
          fun v => (v.1, scopeWithin env v.2) := by
    intro c hc
    refine map_scopeWithin_nested ?_ c
    rw [← inner_scopeWithin, ← h]
    rfl
  rw [Env.nested_eq, Env.nested_eq, List.map_cons, List.map_cons, h]
  split
  next => rfl
  next =>
    rw [List.map_flatMap, List.map_flatMap]
    exact congrArg _ (List.flatMap_congr hbelow)
termination_by sizeOf t
decreasing_by exact Tree.sizeOf_lt_of_mem_children hc

/-- Value definitions are visited where they stand. -/
theorem map_scopeWithin_sites (env : Env) (t : Tree) :
    (((env.sites t).filter (·.1.node.isValDef)).map fun v => (v.1, scopeWithin env v.2))
      = (visits env t .root).filter (·.1.node.isValDef) := by
  have hvisits := filter_visits_nested (q := (·.node.isValDef)) isValDef_of_isTypable env [] t
  have hnested : ((env.sites t).map fun v => (v.1, scopeWithin env v.2))
      = (env.nested (·.node.isImplDef) [] t).map fun v => (v.1, scopeWithin env v.2) :=
    map_scopeWithin_nested rfl t
  have hfilter := congrArg (List.filter (·.1.node.isValDef)) hnested
  rw [List.filter_map, List.filter_map] at hfilter
  exact hfilter.trans hvisits.symm

/-- **The value definitions that come out** are what those at the sites come to in this run. -/
theorem valDefs_of_ends (henv : env.Installed)
    (h : Ends (transform env options t .root) s out s') (hs : Forwarding s) :
    List.Forall₂ (fun v u => BecomesIn env options (t, .root) s (v.1, scopeWithin env v.2) u)
      ((env.sites t).filter (·.1.node.isValDef)) (out.preorder.filter (·.node.isValDef)) := by
  obtain ⟨hdeclarations, -⟩ := declarations_of_ends henv h hs
  have hkind : ∀ v u, BecomesIn env options (t, .root) s v u →
      (v.1.node.isValDef ↔ u.node.isValDef) := by
    rintro v u ⟨s₁, s₂, -, hends⟩
    have hsame := kind_of_ends henv (k := Node.isValDef)
      (fun _ => Node.isDeclaration_of_isValDef) hends
    rw [Node.isValDef_shape, Node.isValDef_shape] at hsame
    rw [hsame]
  have hfilter : ∀ {α : Type} (n : α → Node Tree) (as : List α),
      (as.filter fun a => (n a).isDeclaration).filter (fun a => (n a).isValDef)
        = as.filter fun a => (n a).isValDef := by
    intro α n as
    rw [List.filter_filter]
    refine List.filter_congr fun a _ => ?_
    rw [Bool.and_eq_left_iff_imp]
    exact Node.isDeclaration_of_isValDef
  have hvalues := List.rel_filter (p := fun v => v.1.node.isValDef) (q := fun u => u.node.isValDef)
    (fun v u h => hkind v u h) hdeclarations
  rw [hfilter (fun v : Tree × Scope => v.1.node), hfilter (fun u : Tree => u.node),
    ← map_scopeWithin_sites, List.forall₂_map_left_iff] at hvalues
  exact hvalues

/-! ## Top theorem -/

/-- **Enumeration values are named or warned about, once each.**  In a unit that is prepared the
value definitions come out in order, at their places and with their symbols and types; those of
enumeration values pass their names on to the factories, which are applied to what the arguments
come to where the run over the unit visits them.  The unit is warned about exactly the other factory
calls without names or with null names, where these stand outside the enumeration class, in order.
It does not matter here whether a checked build would find something left over in the result. -/
theorem values_named_or_warned (ds : List Declaration) (options : Options) (a : Annotations)
    (t : Tree) (prepared : Prepared)
    (hok : (prepare (.declaring ds) options t a).1 = .ok prepared) :
    List.Forall₂ (fun v u => v.1.Resembles u
        ∧ (isNamed (.declaring ds) v → ∃ s,
          Reaches (.declaring ds) options (t, .root) { annotations := a }
              (v.1, scopeWithin (.declaring ds) v.2) s
            ∧ GetsName (.declaring ds) options v.1 (scopeWithin (.declaring ds) v.2) s u))
      (((Env.declaring ds).sites t).filter (·.1.node.isValDef))
      (prepared.tree.preorder.filter (·.node.isValDef))
    ∧ (prepared.report.filter (·.code.isWarning)).map Diagnostic.mark
      = ((Env.declaring ds).sites t).filterMap (siteWarning? (.declaring ds)) := by
  have henv := Env.installed_declaring ds
  obtain ⟨s, hends, -, -⟩ := prepare_eq_ok_iff.1 hok
  constructor
  · have hvalues := (List.forall₂_and_left _ _).2
      ⟨fun v hv => (List.mem_filter.1 hv).2, valDefs_of_ends henv hends fun w hw => nomatch hw⟩
    refine hvalues.imp ?_
    rintro ⟨d, outer⟩ u ⟨hd, s₁, s₂, hreaches, hvalue⟩
    constructor
    · exact resembles_of_ends hvalue
        (not_replaced_of_isDeclaration (Node.isDeclaration_of_isValDef hd))
    · intro hnamed
      rw [isNamed, Bool.and_eq_true] at hnamed
      exact ⟨s₁, hreaches, getsName_of_ends henv (Rule.find?_eq_enumValueDef_iff.2 hnamed) hvalue⟩
  · have hsites : (visits (.declaring ds) t .root).filterMap (warning? (.declaring ds))
        = siteWarnings (.declaring ds) [] t := by
      refine filterMap_visits_eq_siteWarnings henv (Env.filed_declaring ds) rfl rfl ?_
      intro v hv hfind
      obtain ⟨_, _, _, -, h⟩ := ends_of_mem_visits henv hends hv
      exact exists_nameValueDef_of_ends hfind h
    rw [report_of_prepare_eq_ok henv hok, map_mark_log, hsites]
    rfl

/-- A package with an enumeration, and a value in it whose field has a blank after its name. -/
def planets : List Declaration :=
  [⟨some SymbolTable.root, "app", .package⟩,
   ⟨some 29, "Planets", .object [] [Library.classTy Library.fresh.1.enumeration]⟩,
   ⟨some 31, "Venus ", .value [] (Library.classTy Library.fresh.1.enumValue)⟩]

/-- The number `2`. -/
def two : Tree := { node := .literal (.int 2), span := ⟨36, 37⟩, ty := .int }

/-- The factory call `Value(2)`. -/
def valueTwo (span : Span) : Tree :=
  let factory : Tree :=
    { node := .ident "Value", span, symbol := some Library.fresh.1.valueInt
      ty := .method [.int] (Library.classTy Library.fresh.1.enumValue) }
  { node := .apply factory [two], span, ty := Library.classTy Library.fresh.1.enumValue }

/-- The definition `val Venus = Value(2)`. -/
def venus : Tree :=
  { node := .valDef (valueTwo ⟨30, 38⟩), span := ⟨18, 38⟩, symbol := some 32 }

/-- The definition `val Venus = Value(2, "Venus")`. -/
def venusNamed : Tree :=
  let factory : Tree :=
    { node := .ident "Value", span := ⟨30, 38⟩, symbol := some Library.fresh.1.valueIntName
      ty := .method [.int, .str] (Library.classTy Library.fresh.1.enumValue) }
  let name : Tree := { node := .literal (.str "Venus"), span := ⟨30, 38⟩, ty := .str }
  let call : Tree :=
    { node := .apply factory [two, name], span := ⟨30, 38⟩
      ty := Library.classTy Library.fresh.1.enumValue }
  { node := .valDef call, span := ⟨18, 38⟩, symbol := some 32 }

/-- The body of the enumeration has the value, and after it another factory call. -/
def planetsBody : Tree :=
  { node := .template [] [venus, valueTwo ⟨40, 48⟩], span := ⟨0, 60⟩, symbol := some 31 }

def planetsObject : Tree :=
  { node := .objectDef planetsBody, span := ⟨0, 60⟩, symbol := some 30 }

/-- The name of the value is that of its field without the blank. -/
theorem eq_venusNamed_of_getsName (h : GetsName (.declaring planets) {} venus scope s u) :
    u = venusNamed := by
  obtain ⟨rhs, callee, args, qs, as, qs', as', s₁, s₂, hnode, hrhs, hqs, has, hqs', has', rfl⟩ := h
  cases hnode
  cases hrhs
  cases hqs
  obtain ⟨number, _, hnumber, hnil, rfl⟩ := List.forall₂_cons_left_iff.1 has
  cases hnil
  rw [Typing.assign_eq_ok_iff_of_typed (by decide)] at hnumber
  cases hnumber
  rw [ends_mapM_iff] at hqs' has'
  cases hqs'
  cases has' with
  | cons hnumber hnil =>
    cases hnil
    obtain ⟨rfl, -⟩ := of_ends_literal rfl hnumber
    have hname : Name.decode (Name.getter ((Env.declaring planets).table.name (some 32)))
        = "Venus" := by
      decide +kernel
    rw [show venus.symbol = some 32 from rfl, hname]
    rfl

/-- The value gets its name, and the other call is warned about. -/
theorem values_named_or_warned_planets :
    ∃ prepared, (prepare (.declaring planets) {} planetsObject (.blank 33)).1 = .ok prepared
      ∧ (∃ u ∈ prepared.tree.preorder, ∃ s,
          Reaches (.declaring planets) {} (planetsObject, .root) { annotations := .blank 33 }
              (venus, { enumSubclass := true }) s
            ∧ GetsName (.declaring planets) {} venus { enumSubclass := true } s u
            ∧ u = venusNamed)
      ∧ (prepared.report.filter (·.code.isWarning)).map Diagnostic.mark
          = [(.unnamedValue, some ⟨40, 48⟩)] := by
  have hok : (prepare (.declaring planets) {} planetsObject (.blank 33)).1.isOk := by
    decide +kernel
  obtain ⟨prepared, hok⟩ := exists_prepared hok
  obtain ⟨hvalues, hwarnings⟩ :=
    values_named_or_warned planets {} (.blank 33) planetsObject prepared hok
  refine ⟨prepared, hok, ?_, ?_⟩
  · have hsite : (venus, [planetsBody, planetsObject])
        ∈ (Env.declaring planets).sites planetsObject := by
      have hvenus := Env.mem_nested_self (.declaring planets) (fun _ => true)
        [planetsBody, planetsObject] venus
      exact Env.nested_subset_of_mem_children rfl (.head _)
        (Env.nested_subset_of_mem_children rfl (.head _) hvenus)
    have hscope : scopeWithin (.declaring planets) [planetsBody, planetsObject]
        = { enumSubclass := true } := by
      decide +kernel
    obtain ⟨u, hu, -, hname⟩ :=
      exists_of_forall₂_of_mem hvalues (List.mem_filter.2 ⟨hsite, rfl⟩)
    obtain ⟨s, hreaches, hgets⟩ := hname (by decide +kernel)
    rw [hscope] at hreaches hgets
    exact ⟨u, (List.mem_filter.1 hu).1, s, hreaches, hgets, eq_venusNamed_of_getsName hgets⟩
  · rw [hwarnings]
    decide +kernel

end Pass

end Interop
