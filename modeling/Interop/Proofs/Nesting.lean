import Interop.Proofs.Visits

/-!
# What encloses a node

`nested p [] t` lists the nodes of `t` outside type tokens, each with the nodes above it of which
`p` holds, the innermost first.  Only declarations open scopes, so the scope of a visit is made of
the declarations around it,

    scopeWithin [oₙ, …, o₁]  =  inner oₙ (… (inner o₁ root))

and what the pass does not build is visited in the scope that is made so (`filter_visits_nested`).
-/

namespace Interop

/-! ## Algorithm -/

/-- A class without parents, at one place with its body. -/
def classTree (symbol : SymbolId) (span : Span) (members : List Tree) : Tree :=
  { node := .classDef { node := .template [] members, span, symbol := some symbol }
    span, symbol := some symbol }

/-- An object without parents; its class is declared next to it. -/
def objectTree (symbol : SymbolId) (span : Span) (members : List Tree) : Tree :=
  { node := .objectDef { node := .template [] members, span, symbol := some (symbol + 1) }
    span, symbol := some symbol }

/-- The nodes outside type tokens, each with the nodes around it of which `p` holds. -/
def Env.nested (env : Env) (p : Tree → Bool) (outer : List Tree) (t : Tree) :
    List (Tree × List Tree) :=
  (t, outer) :: if env.isTypeToken t then [] else
    t.children.attach.flatMap fun ⟨c, _⟩ => env.nested p (if p t then t :: outer else outer) c
termination_by sizeOf t
decreasing_by exact Tree.sizeOf_lt_of_mem_children ‹_›

/-! ## Lemmas -/

variable {p : Tree → Bool} {outer : List Tree} {t : Tree}

namespace Env

variable {env : Env}

theorem nested_eq (env : Env) (p : Tree → Bool) (outer : List Tree) (t : Tree) :
    env.nested p outer t = (t, outer) :: if env.isTypeToken t then [] else
      t.children.flatMap (env.nested p (if p t then t :: outer else outer)) := by
  rw [nested]
  simp

theorem mem_nested_self (env : Env) (p : Tree → Bool) (outer : List Tree) (t : Tree) :
    (t, outer) ∈ env.nested p outer t := by
  rw [nested_eq]
  exact .head _

/-- What is listed of a child is listed of the node, which is then around it. -/
theorem nested_subset_of_mem_children (ht : env.isTypeToken t = false) {c : Tree}
    (hc : c ∈ t.children) :
    env.nested p (if p t then t :: outer else outer) c ⊆ env.nested p outer t := by
  intro v hv
  rw [nested_eq env p outer t, ht]
  exact .tail _ (List.mem_flatMap.2 ⟨c, hc, hv⟩)

/-- The nodes that are listed are those outside type tokens. -/
theorem map_fst_nested (env : Env) (p : Tree → Bool) (outer : List Tree) (t : Tree) :
    (env.nested p outer t).map (·.1) = env.live t := by
  rw [nested_eq, live_eq, List.map_cons]
  split
  next => rfl
  next =>
    rw [List.map_flatMap]
    exact congrArg _ (List.flatMap_congr fun c hc => map_fst_nested env p _ c)
termination_by sizeOf t
decreasing_by exact Tree.sizeOf_lt_of_mem_children hc

/-- What is listed around a node is around the tree, or in the tree. -/
theorem of_mem_nested {outer : List Tree} {t : Tree} {v : Tree × List Tree}
    (hv : v ∈ env.nested p outer t) {o : Tree} (ho : o ∈ v.2) :
    o ∈ outer ∨ (p o ∧ o ∈ env.live t) := by
  rw [nested_eq] at hv
  rw [live_eq]
  rcases List.mem_cons.1 hv with rfl | hv
  · exact .inl ho
  · split at hv
    next => cases hv
    next htoken =>
      rw [if_neg htoken]
      obtain ⟨c, hc, hv⟩ := List.mem_flatMap.1 hv
      rcases of_mem_nested hv ho with ho | ⟨hp, ho⟩
      · split at ho
        next ht =>
          rcases List.mem_cons.1 ho with rfl | ho
          · exact .inr ⟨ht, .head _⟩
          · exact .inl ho
        next => exact .inl ho
      · exact .inr ⟨hp, .tail _ (List.mem_flatMap.2 ⟨c, hc, ho⟩)⟩
termination_by sizeOf t
decreasing_by exact Tree.sizeOf_lt_of_mem_children hc

/-- What is around the tree is around all its nodes. -/
theorem nested_append (env : Env) (p : Tree → Bool) (outer os : List Tree) (t : Tree) :
    env.nested p (outer ++ os) t = (env.nested p outer t).map fun v => (v.1, v.2 ++ os) := by
  rw [nested_eq, nested_eq, List.map_cons]
  split
  next => rfl
  next =>
    have houter : (if p t then t :: (outer ++ os) else outer ++ os)
        = (if p t then t :: outer else outer) ++ os := by
      split <;> rfl
    rw [houter, List.map_flatMap]
    exact congrArg _ (List.flatMap_congr fun c hc => nested_append env p _ os c)
termination_by sizeOf t
decreasing_by exact Tree.sizeOf_lt_of_mem_children hc

/-- A test of nodes that tells apart only what the pass does not build skips what it builds. -/
theorem filter_nested_of_isTypable (hp : ∀ t, t.node.isTypable → p t = false)
    {q : Tree → Bool} (hq : ∀ t, t.node.isTypable → q t = false) (outer : List Tree) (t : Tree)
    (ht : t.node.isTypable) : (env.nested p outer t).filter (q ·.1)
      = t.children.flatMap fun c => (env.nested p outer c).filter (q ·.1) := by
  rw [nested_eq, Pass.isTypeToken_eq_false_of_isTypable ht, hp t ht,
    List.filter_cons_of_neg (by simp [hq t ht])]
  exact List.filter_flatMap

end Env

namespace Pass

variable {env : Env}

/-- What is listed of a part is listed of the node, which is then around it too. -/
theorem mem_nested_of_mem_parts (hp : ∀ t, t.node.isTypable → p t = false)
    {q : Tree → Bool} (hq : ∀ t, t.node.isTypable → q t = false) {scope : Scope} {c : Tree}
    (hc : c ∈ parts env t scope) {v : Tree × List Tree} (hv : v ∈ env.nested p [] c)
    (hqv : q v.1) : (v.1, v.2 ++ if p t then [t] else []) ∈ env.nested p [] t := by
  cases htoken : env.isTypeToken t with
  | true =>
    rw [parts_of_typeToken (Rule.find?_eq_typeToken_iff.2 htoken)] at hc
    cases hc
  | false =>
    have hmem : (v.1, v.2 ++ if p t then [t] else [])
        ∈ (t.children.flatMap (env.nested p (if p t then [t] else []))).filter (q ·.1) := by
      rw [List.filter_flatMap,
        ← flatMap_parts (Env.filter_nested_of_isTypable hp hq _) htoken scope]
      refine List.mem_flatMap.2 ⟨c, hc, List.mem_filter.2 ⟨?_, hqv⟩⟩
      rw [← List.nil_append (if p t then [t] else []), Env.nested_append]
      exact List.mem_map_of_mem hv
    rw [Env.nested_eq, htoken]
    exact .tail _ (List.mem_filter.1 hmem).1

/-! ## Scopes -/

/-- The scope inside declarations, of which the first is the innermost. -/
def scopeWithin (env : Env) (outer : List Tree) : Scope := outer.foldr (inner env) .root

/-- Only declarations open scopes. -/
theorem inner_of_not_isImplDef (ht : ¬ t.node.isImplDef) (scope : Scope) :
    inner env t scope = scope := by
  unfold inner
  split
  next => rfl
  next rule hfind =>
    have hmem := Rule.mem_candidates_of_find?_eq_some hfind
    have hopens : rule.opens t = .root := by
      cases hnode : t.node with
      | classDef _ | objectDef _ =>
        rw [hnode] at ht
        exact absurd rfl ht
      | _ =>
        rw [hnode] at hmem
        cases rule <;> simp [Rule.candidates, Rule.opens] at hmem ⊢
    rw [hopens, Scope.enter_root]

/-- What is not kept opens no scope. -/
theorem inner_of_not_kept {scope : Scope} (h : ¬ Kept env t scope) : inner env t scope = scope := by
  refine inner_of_not_isImplDef ?_ scope
  rcases stages_cases env t scope with
    hkept | ⟨-, callee, arg, ht⟩ | ⟨-, hvalue⟩ | ⟨-, callee, args, receiver, name, ht, -⟩
      | ⟨-, receiver, name, ht⟩
  · exact absurd hkept h
  · simp [ht, Node.isImplDef]
  · obtain ⟨rhs, _, _, ht, -⟩ := Env.isUnnamedValueDef_iff.1 hvalue
    simp [ht, Node.isImplDef]
  · simp [ht, Node.isImplDef]
  · simp [ht, Node.isImplDef]

theorem inner_scopeWithin (env : Env) (t : Tree) (outer : List Tree) :
    inner env t (scopeWithin env outer)
      = scopeWithin env (if t.node.isImplDef then t :: outer else outer) := by
  split
  next => rfl
  next ht => exact inner_of_not_isImplDef ht _

/-- **The scope of a node** that the pass does not build is made of the declarations around it. -/
theorem filter_visits_nested {q : Tree → Bool} (hq : ∀ t, t.node.isTypable → q t = false)
    (env : Env) (outer : List Tree) (t : Tree) :
    (visits env t (scopeWithin env outer)).filter (q ·.1)
      = ((env.nested (·.node.isImplDef) outer t).filter (q ·.1)).map
          fun v => (v.1, scopeWithin env v.2) := by
  suffices h : ∀ t scope outer, scope = scopeWithin env outer →
      (visits env t scope).filter (q ·.1)
        = ((env.nested (·.node.isImplDef) outer t).filter (q ·.1)).map
            fun v => (v.1, scopeWithin env v.2) from h t _ outer rfl
  intro t scope
  induction t, scope using parts_induction env with
  | h t scope ih =>
    rintro outer rfl
    -- the parts of the node, in their scope
    have hparts : ((parts env t (scopeWithin env outer)).flatMap
          (visits env · (inner env t (scopeWithin env outer)))).filter (q ·.1)
        = ((if env.isTypeToken t then [] else t.children.flatMap (env.nested (·.node.isImplDef)
            (if t.node.isImplDef then t :: outer else outer))).filter (q ·.1)).map
          fun v => (v.1, scopeWithin env v.2) := by
      cases htoken : env.isTypeToken t with
      | true =>
        rw [parts_of_typeToken (Rule.find?_eq_typeToken_iff.2 htoken)]
        rfl
      | false =>
        rw [if_neg (by simp), List.filter_flatMap, List.filter_flatMap,
          ← flatMap_parts (Env.filter_nested_of_isTypable isImplDef_of_isTypable hq _) htoken
            (scopeWithin env outer), List.map_flatMap]
        exact List.flatMap_congr fun c hc => ih c hc _ (inner_scopeWithin env t outer)
    rw [visits_eq, Env.nested_eq, List.filter_cons, List.filter_cons, hparts]
    split
    next => rfl
    next => rfl

end Pass

end Interop
