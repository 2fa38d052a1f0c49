import Interop.Proofs.Places
import Interop.Proofs.Quiet

/-!
# Declarations are kept

The pass takes trees apart and builds others, but it neither makes declarations nor drops any.  The
visits of declarations and the declarations that come out go together one for one, in order,

    visits of declarations   (t₁, scope₁)  …  (tₙ, scopeₙ)
    declarations of out      u₁            …  uₙ              where  transform tᵢ scopeᵢ = uᵢ

and each `uᵢ` is `tᵢ` over other subtrees, with the bodies around it that `scopeᵢ` is made of.
-/

namespace Interop

/-! ## Algorithm -/

/-- A package, class, object, method or value, or the body of one. -/
def Node.isDeclaration {α : Type} : Node α → Bool
  | packageDef _ | classDef _ | objectDef _ | template _ _ | defDef _ _ | valDef _ => true
  | _ => false

deriving instance DecidableEq for Node

/-- What a declaration is, apart from what is below it. -/
def Tree.outline (t : Tree) : Node Unit × SymbolRef × Span × Ty :=
  (t.node.shape, t.symbol, t.span, t.ty)

/-- The nodes of a tree, each with the scope that the bodies around it make. -/
def Pass.within (env : Env) (t : Tree) (scope : Scope) : List (Tree × Scope) :=
  (t, scope) :: t.children.attach.flatMap fun ⟨c, _⟩ => within env c (inner env t scope)
termination_by sizeOf t
decreasing_by exact Tree.sizeOf_lt_of_mem_children ‹_›

/-! ## Lemmas -/

/-- Whether a node is a declaration is seen by its kind. -/
@[simp] theorem Node.isDeclaration_shape {α : Type} (n : Node α) :
    n.shape.isDeclaration = n.isDeclaration := by
  cases n <;> rfl

@[simp] theorem Node.isObjectDef_shape {α : Type} (n : Node α) :
    n.shape.isObjectDef = n.isObjectDef := by
  cases n <;> rfl

@[simp] theorem Node.isImplDef_shape {α : Type} (n : Node α) : n.shape.isImplDef = n.isImplDef := by
  cases n <;> rfl

@[simp] theorem Node.isReference_shape {α : Type} (n : Node α) :
    n.shape.isReference = n.isReference := by
  cases n <;> rfl

@[simp] theorem Node.isDefDef_shape {α : Type} (n : Node α) : n.shape.isDefDef = n.isDefDef := by
  cases n <;> rfl

theorem isDeclaration_of_isTypable (t : Tree) (ht : t.node.isTypable) :
    t.node.isDeclaration = false := by
  cases hnode : t.node <;> simp [hnode, Node.isTypable, Node.isDeclaration] at ht ⊢

theorem isDeclaration_of_isImplDef {α : Type} {n : Node α} (h : n.isImplDef) : n.isDeclaration := by
  cases n <;> simp [Node.isImplDef, Node.isDeclaration] at h ⊢

theorem isDeclaration_of_isDefDef {α : Type} {n : Node α} (h : n.isDefDef) : n.isDeclaration := by
  cases n <;> simp [Node.isDefDef, Node.isDeclaration] at h ⊢

theorem isDeclaration_of_isExpression {t : Tree} (ht : t.node.isExpression) :
    t.node.isDeclaration = false := by
  cases hnode : t.node <;> simp [hnode, Node.isExpression, Node.isDeclaration] at ht ⊢

namespace Pass

variable {env : Env} {options : Options} {t u : Tree} {scope : Scope} {s s' : State} {out : Tree}

/-- No declaration is replaced. -/
theorem not_replaced_of_isDeclaration (ht : t.node.isDeclaration) : ¬ Replaced env t scope := by
  rintro ⟨rule, hfind, hrule⟩
  have hmem := Rule.mem_candidates_of_find?_eq_some hfind
  cases hnode : t.node <;>
    cases rule <;>
      simp [hnode, Node.isDeclaration, Rule.candidates, Rule.replaces] at ht hmem hrule

/-- Declarations keep their kind, and nothing else becomes a declaration. -/
theorem kind_of_ends (henv : env.Installed) {k : Node Unit → Bool}
    (hk : ∀ n, k n → n.isDeclaration) (h : Ends (transform env options t scope) s out s') :
    k out.node.shape = k t.node.shape := by
  have hnone : ∀ u : Tree, u.node.isDeclaration = false → k u.node.shape = false := by
    intro u hu
    rw [Bool.eq_false_iff]
    intro hshape
    rw [← Node.isDeclaration_shape, hk _ hshape] at hu
    cases hu
  by_cases hreplaced : Replaced env t scope
  · have ht : t.node.isDeclaration = false :=
      Bool.eq_false_iff.2 fun ht => not_replaced_of_isDeclaration ht hreplaced
    rw [hnone t ht]
    refine hnone out ?_
    rcases (replacement_of_ends henv h hreplaced).2 with ⟨d, -, -, -, rfl⟩ | ⟨hexpression, -⟩
    · rfl
    · exact isDeclaration_of_isExpression hexpression
  · rw [(resembles_of_ends h hreplaced).shape_eq]

theorem isDeclaration_of_ends (henv : env.Installed)
    (h : Ends (transform env options t scope) s out s') :
    out.node.isDeclaration = t.node.isDeclaration := by
  simpa using kind_of_ends henv (k := Node.isDeclaration) (fun _ h => h) h

/-! ### Scopes -/

theorem within_eq (env : Env) (t : Tree) (scope : Scope) :
    within env t scope
      = (t, scope) :: t.children.flatMap (within env · (inner env t scope)) := by
  rw [within]
  simp

theorem map_fst_within (env : Env) (t : Tree) (scope : Scope) :
    (within env t scope).map (·.1) = t.preorder := by
  rw [within_eq, t.preorder_eq, List.map_cons, List.map_flatMap]
  exact congrArg _ (List.flatMap_congr fun c _ => map_fst_within env c _)
termination_by sizeOf t
decreasing_by exact Tree.sizeOf_lt_of_mem_children ‹_›

/-- The rule for a class or an object depends on its kind and its symbol. -/
theorem find?_of_resembles (h : t.Resembles u) (ht : t.node.isImplDef) (scope : Scope) :
    Rule.find? env u scope = Rule.find? env t scope := by
  have hshape := h.shape_eq
  rw [Rule.find?_eq_candidates, Rule.find?_eq_candidates env t]
  cases hnode : t.node with
  | classDef _ | objectDef _ =>
    rw [hnode] at hshape
    cases hnode' : u.node <;> simp [hnode', Node.shape, Node.withChildren] at hshape
    simp only [Rule.candidates, List.find?_cons, Rule.applies, hnode, hnode',
      Node.isClassDef, Node.isObjectDef, Node.isImplDef, h.symbol_eq]
  | _ =>
    rw [hnode] at ht
    cases ht

/-- A node opens the same scope when another tree is in its place. -/
theorem inner_of_ends (henv : env.Installed) (h : Ends (transform env options t scope) s out s') :
    inner env out scope = inner env t scope := by
  by_cases ht : t.node.isImplDef
  · have hsame := resembles_of_ends h (not_replaced_of_isDeclaration (isDeclaration_of_isImplDef ht))
    have hobject := congrArg Node.isObjectDef hsame.shape_eq
    simp only [Node.isObjectDef_shape] at hobject
    unfold inner
    rw [find?_of_resembles hsame ht]
    unfold Rule.opens
    rw [hobject]
  · have hout : out.node.isImplDef = t.node.isImplDef := by
      simpa using kind_of_ends henv (k := Node.isImplDef) (fun _ => isDeclaration_of_isImplDef) h
    rw [inner_of_not_isImplDef ht, inner_of_not_isImplDef (by rwa [hout])]

/-! ### What comes out -/

/-- Leaving a node adds nothing below it but forwarders. -/
theorem flatMap_children_of_ends_leave {α : Type} {g : Tree → List α}
    (hg : ∀ f, IsForwarder f → g f = []) (h : Ends (leave env t) s out s') (hs : Forwarding s) :
    out.children.flatMap g = t.children.flatMap g := by
  rcases ends_leave h with ⟨parents, body, ht, rfl, -⟩ | ⟨-, rfl, -⟩
  · have hnone : (((s.waiting.filter (·.1 = t.symbol)).map (·.2)).flatMap g) = [] := by
      rw [List.flatMap_eq_nil_iff]
      intro f hf
      obtain ⟨w, hw, rfl⟩ := List.mem_map.1 hf
      exact hg _ (hs w (List.mem_of_mem_filter hw))
    simp only [Tree.children, ht, Node.children, List.flatMap_append, hnone, List.append_nil]
  · rfl

/-- The declarations in a tree of a kind that the pass builds are those below it. -/
theorem filter_within_of_isTypable (ht : t.node.isTypable) (scope : Scope) :
    (within env t scope).filter (·.1.node.isDeclaration)
      = t.children.flatMap fun c => (within env c scope).filter (·.1.node.isDeclaration) := by
  rw [within_eq, List.filter_cons_of_neg (by simp [isDeclaration_of_isTypable t ht]),
    List.filter_flatMap, inner_of_not_isImplDef (by simp [isImplDef_of_isTypable t ht])]

/-- **The declarations that come out** are what the visits of declarations come to in this run, in
the same scopes. -/
theorem within_of_ends (henv : env.Installed)
    (h : Ends (transform env options t scope) s out s') (hs : Forwarding s) :
    List.Forall₂ (fun v w => BecomesIn env options (t, scope) s v w.1 ∧ w.2 = v.2)
        ((visits env t scope).filter (·.1.node.isDeclaration))
        ((within env out scope).filter (·.1.node.isDeclaration))
      ∧ Forwarding s' := by
  induction t, scope using parts_induction env generalizing s s' out with
  | h t scope ih =>
    obtain ⟨s₁, cs, s₂, u, hopen, hparts, hrebuild, hleave⟩ := ends_transform_iff.1 h
    obtain ⟨hcs, hs₂⟩ := hparts.forall₂_of_before (P := Forwarding)
      (Q := fun c c' => List.Forall₂
        (fun v w => BecomesIn env options (t, scope) s v w.1 ∧ w.2 = v.2)
        ((visits env c (inner env t scope)).filter (·.1.node.isDeclaration))
        ((within env c' (inner env t scope)).filter (·.1.node.isDeclaration)))
      (fun before c hc outs s c' s' hbefore hs h => by
        have hmem := hc.subset (List.mem_append_right before (.head _))
        refine (ih c hmem h hs).imp_left fun hin => hin.imp ?_
        rintro v w ⟨⟨s₃, s₄, hreaches, hends⟩, hscope⟩
        exact ⟨⟨s₃, s₄, .part hopen hc hbefore hreaches, hends⟩, hscope⟩)
      (forwarding_of_ends_opening hopen hs)
    refine ⟨?_, forwarding_of_ends_leave hleave hs₂⟩
    have hbelow : (out.children.flatMap fun c =>
          (within env c (inner env t scope)).filter (·.1.node.isDeclaration))
        = cs.flatMap fun c =>
          (within env c (inner env t scope)).filter (·.1.node.isDeclaration) := by
      rw [flatMap_children_of_ends_leave ?_ hleave hs₂]
      · exact flatMap_children_of_rebuild (fun u hu => filter_within_of_isTypable hu _) henv
          hparts.length_eq hrebuild
      · rintro f ⟨jsName, kind, hnode⟩
        rw [within_eq, Tree.children, hnode,
          List.filter_cons_of_neg (by simp [hnode, Node.isDeclaration])]
        rfl
    have hvisits : List.Forall₂ (fun v w => BecomesIn env options (t, scope) s v w.1 ∧ w.2 = v.2)
        ((parts env t scope).flatMap fun c =>
          (visits env c (inner env t scope)).filter (·.1.node.isDeclaration))
        (out.children.flatMap fun c =>
          (within env c (inner env t scope)).filter (·.1.node.isDeclaration)) := by
      rw [hbelow]
      exact List.rel_flatMap hcs fun _ _ h => h
    rw [visits_eq, within_eq, List.filter_cons, List.filter_cons, List.filter_flatMap,
      List.filter_flatMap, isDeclaration_of_ends henv h, inner_of_ends henv h]
    split
    next => exact .cons ⟨⟨s, s', .self, h⟩, rfl⟩ hvisits
    next => exact hvisits

theorem declarations_of_ends (henv : env.Installed)
    (h : Ends (transform env options t scope) s out s') (hs : Forwarding s) :
    List.Forall₂ (BecomesIn env options (t, scope) s)
        ((visits env t scope).filter (·.1.node.isDeclaration))
        (out.preorder.filter (·.node.isDeclaration))
      ∧ Forwarding s' := by
  obtain ⟨hwithin, hs'⟩ := within_of_ends henv h hs
  refine ⟨?_, hs'⟩
  rw [← map_fst_within env out scope, List.filter_map, List.forall₂_map_right_iff]
  exact hwithin.imp fun _ _ h => h.1

/-! ## Top theorem -/

/-- **No declaration is lost, made twice or put elsewhere.**  A unit that is prepared declares what
was declared outside type tokens, in the same order: each declaration is of the same kind, with the
same symbol, place and type.  By `declarations_of_ends` so does every run that ends, checked or
not. -/
theorem declarations_kept (ds : List Declaration) (options : Options) (a : Annotations) (t : Tree)
    (prepared : Prepared) (hok : (prepare (.declaring ds) options t a).1 = .ok prepared) :
    (prepared.tree.preorder.filter (·.node.isDeclaration)).map Tree.outline
      = (((Env.declaring ds).live t).filter (·.node.isDeclaration)).map Tree.outline := by
  obtain ⟨s, hends, -, -⟩ := prepare_eq_ok_iff.1 hok
  obtain ⟨hdeclarations, -⟩ :=
    declarations_of_ends (Env.installed_declaring ds) hends fun w hw => nomatch hw
  have hvisits := (List.forall₂_and_left _ _).2
    ⟨fun v hv => (List.mem_filter.1 hv).2, hdeclarations⟩
  have hlive := filter_visits (p := (·.node.isDeclaration)) isDeclaration_of_isTypable
    (.declaring ds) t .root
  rw [← hlive, List.filter_map, List.map_map, ← List.forall₂_eq_eq_eq, List.forall₂_map_left_iff,
    List.forall₂_map_right_iff]
  refine hvisits.flip.imp ?_
  rintro u ⟨d, dscope⟩ ⟨hd, s₁, s₂, -, hends⟩
  have hsame := resembles_of_ends hends (not_replaced_of_isDeclaration hd)
  show u.outline = d.outline
  unfold Tree.outline
  rw [hsame.shape_eq, hsame.symbol_eq, hsame.span_eq, hsame.ty_eq]

/-- A class, a dynamic value, and a value in a block. -/
def classAndLocal : List Declaration :=
  classAndDynamic ++ [⟨some 29, "v", .value [.localMod] .int⟩]

/-- The value `v` is defined in a block that is an argument of `d.x`. -/
def definedInArgument : Tree :=
  let zero : Tree := { node := .literal (.int 0), span := ⟨14, 15⟩, ty := .int }
  let v : Tree := { node := .valDef zero, span := ⟨6, 15⟩, symbol := some 32 }
  let block : Tree := { node := .block [v] zero, span := ⟨4, 19⟩, ty := .int }
  { node := .packageDef [fooToken, appliedTo block], span := ⟨0, 20⟩, symbol := some 29 }

/-- The value comes out with the argument. -/
theorem declarations_kept_definedInArgument :
    ∃ prepared, (prepare (.declaring classAndLocal) {} definedInArgument (.blank 33)).1
          = .ok prepared
      ∧ (prepared.tree.preorder.filter (·.node.isDeclaration)).map Tree.outline
          = [(.packageDef [], some 29, ⟨0, 20⟩, .noType), (.valDef (), some 32, ⟨6, 15⟩, .noType)]
      := by
  have hok : (prepare (.declaring classAndLocal) {} definedInArgument (.blank 33)).1.isOk := by
    decide +kernel
  obtain ⟨prepared, hok⟩ := exists_prepared hok
  refine ⟨prepared, hok, ?_⟩
  rw [declarations_kept classAndLocal {} (.blank 33) definedInArgument prepared hok]
  decide +kernel

end Pass

end Interop
