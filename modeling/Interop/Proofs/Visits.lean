import Interop.Proofs.Stages
import Interop.Unit

/-!
# What a traversal visits

`visits t scope` lists the nodes that the pass comes to from `t`, each with its scope, and
`live t` lists the nodes of `t` that do not stand in a type token.  The pass visits trees that it
built itself, so these are not the same; but it builds no declarations, type tokens or other
definitions, so of these both lists have the same ones (`filter_visits`).

A run makes its visits one after the other, each in the state that the one before has left:
`Reaches v s w s'` says that the visit of `v` from the state `s` on comes to that of `w`, in the
state `s'`.
-/

namespace Interop

/-- The tree and what is below it outside type tokens, a parent before its children. -/
def Env.live (env : Env) (t : Tree) : List Tree :=
  t :: if env.isTypeToken t then [] else t.children.attach.flatMap fun ⟨c, _⟩ => env.live c
termination_by sizeOf t
decreasing_by exact Tree.sizeOf_lt_of_mem_children ‹_›

theorem Env.live_eq (env : Env) (t : Tree) :
    env.live t = t :: if env.isTypeToken t then [] else t.children.flatMap env.live := by
  rw [live]
  simp

/-- Nodes outside type tokens are among all nodes. -/
theorem Env.live_subset_preorder (env : Env) (t : Tree) : env.live t ⊆ t.preorder := by
  intro u hu
  rw [Env.live_eq, List.mem_cons] at hu
  rcases hu with rfl | hu
  · exact u.mem_preorder_self
  · split at hu
    next => cases hu
    next =>
      obtain ⟨c, hc, hu⟩ := List.mem_flatMap.1 hu
      exact Tree.preorder_subset_of_mem_children hc (env.live_subset_preorder c hu)
termination_by sizeOf t
decreasing_by exact Tree.sizeOf_lt_of_mem_children hc

namespace Pass

/-- The nodes that are visited from `t` on, each with its scope, in order. -/
def visits (env : Env) (t : Tree) (scope : Scope) : List (Tree × Scope) :=
  (t, scope) :: (parts env t scope).attach.flatMap fun ⟨c, _⟩ => visits env c (inner env t scope)
termination_by t.weight
decreasing_by exact weight_lt_of_mem_parts ‹_›

variable {env : Env} {options : Options} {t : Tree} {scope : Scope}

theorem visits_eq (env : Env) (t : Tree) (scope : Scope) :
    visits env t scope
      = (t, scope) :: (parts env t scope).flatMap (visits env · (inner env t scope)) := by
  rw [visits]
  simp

theorem mem_visits_self (env : Env) (t : Tree) (scope : Scope) :
    (t, scope) ∈ visits env t scope := by
  rw [visits_eq]
  exact .head _

/-- What is visited from a part on is visited from the node on. -/
theorem visits_subset_of_mem_parts {c : Tree} (hc : c ∈ parts env t scope) :
    visits env c (inner env t scope) ⊆ visits env t scope := by
  intro v hv
  rw [visits_eq env t scope]
  exact .tail _ (List.mem_flatMap.2 ⟨c, hc, hv⟩)

/-- Unless a value gets its name, the parts of a node are all below it. -/
theorem preorder_subset_of_mem_parts (hvalue : Rule.find? env t scope ≠ some .enumValueDef)
    {c : Tree} (hc : c ∈ parts env t scope) : c.preorder ⊆ t.preorder := by
  rcases stages_cases env t scope with
    hkept | ⟨hfind, -⟩ | ⟨hfind, -⟩ | ⟨hfind, callee, args, receiver, name, ht, hcallee⟩
      | ⟨hfind, receiver, name, ht⟩
  · rw [parts_of_kept hkept] at hc
    exact Tree.preorder_subset_of_mem_children hc
  · rw [parts_of_typeToken hfind] at hc
    cases hc
  · exact absurd hfind hvalue
  · rw [parts_of_dynamicApply hfind ht hcallee] at hc
    rcases List.mem_cons.1 hc with rfl | hc
    · exact List.Subset.trans
        (Tree.preorder_subset_of_mem_children (Tree.qualifier_mem_children hcallee))
        (Tree.preorder_subset_of_mem_children (Tree.callee_mem_children ht))
    · exact Tree.preorder_subset_of_mem_children (Tree.arg_mem_children ht hc)
  · rw [parts_of_dynamicSelect hfind ht] at hc
    rw [List.mem_singleton.1 hc]
    exact Tree.preorder_subset_of_mem_children (Tree.qualifier_mem_children ht)

/-- What passes from the parts of a node to the node holds of every node. -/
theorem parts_induction (env : Env) {motive : Tree → Scope → Prop}
    (h : ∀ t scope, (∀ c ∈ parts env t scope, motive c (inner env t scope)) → motive t scope)
    (t : Tree) (scope : Scope) : motive t scope :=
  h t scope fun c _ => parts_induction env h c (inner env t scope)
termination_by t.weight
decreasing_by exact weight_lt_of_mem_parts ‹_›

/-! ## Runs that end -/

/-- A unit is prepared by one run from the top. -/
theorem prepare_eq (env : Env) (options : Options) (t : Tree) (a : Annotations) :
    prepare env options t a
      = ((run (transform env options t .root) { annotations := a }).1 >>= fun tree =>
          match env.leftovers tree with
          | [] => .ok ⟨tree, (run (transform env options t .root) { annotations := a }).2.report⟩
          | found => .error (.leftovers found),
        (run (transform env options t .root) { annotations := a }).2.annotations) := by
  unfold prepare preparing
  rw [Script.run_bind]
  rfl

/-- A unit is prepared if its run ends and leaves nothing over. -/
theorem prepare_eq_ok_iff {a : Annotations} {prepared : Prepared} :
    (prepare env options t a).1 = .ok prepared ↔ ∃ s,
      Ends (transform env options t .root) { annotations := a } prepared.tree s
        ∧ env.leftovers prepared.tree = [] ∧ prepared.report = s.report := by
  rw [prepare_eq]
  unfold Ends
  rcases run (transform env options t .root) { annotations := a } with ⟨e | tree, s⟩
  · simp [bind, Except.bind]
  · cases hleft : env.leftovers tree with
    | nil =>
      simp only [bind, Except.bind, hleft, Except.ok.injEq, Prod.mk.injEq]
      constructor
      · rintro rfl
        exact ⟨s, ⟨rfl, rfl⟩, hleft, rfl⟩
      · rintro ⟨_, ⟨rfl, rfl⟩, -, hreport⟩
        rw [← hreport]
    | cons l ls =>
      simp only [bind, Except.bind, hleft, Prod.mk.injEq]
      constructor
      · rintro ⟨⟩
      · rintro ⟨_, ⟨htree, -⟩, hnone, -⟩
        rw [← Except.ok.inj htree, hleft] at hnone
        cases hnone

/-- A unit is stopped where its run is, or over what its run leaves. -/
theorem prepare_eq_error_iff {a : Annotations} {stop : Abort} :
    (prepare env options t a).1 = .error stop
      ↔ (run (transform env options t .root) { annotations := a }).1 = .error stop
        ∨ ∃ tree, (run (transform env options t .root) { annotations := a }).1 = .ok tree
          ∧ env.leftovers tree ≠ [] ∧ stop = .leftovers (env.leftovers tree) := by
  rw [prepare_eq]
  rcases run (transform env options t .root) { annotations := a } with ⟨e | tree, s⟩
  · simp [bind, Except.bind]
  · cases hleft : env.leftovers tree with
    | nil => simp [bind, Except.bind, hleft]
    | cons l ls => simpa [bind, Except.bind, hleft] using eq_comm

theorem exists_prepared {a : Annotations} (h : (prepare env options t a).1.isOk) :
    ∃ prepared, (prepare env options t a).1 = .ok prepared := by
  cases hok : (prepare env options t a).1 with
  | error stop =>
    rw [hok] at h
    cases h
  | ok prepared => exact ⟨prepared, rfl⟩

theorem ends_transform_iff {s s' : State} {out : Tree} :
    Ends (transform env options t scope) s out s' ↔ ∃ s₁ cs s₂ t',
      Ends (opening env options t scope) s () s₁
        ∧ Chain (fun c => Ends (transform env options c (inner env t scope))) (parts env t scope)
            s₁ cs s₂
        ∧ rebuild env options t scope cs = .ok t' ∧ Ends (leave env t') s₂ out s' := by
  rw [transform_eq]
  simp only [ends_bind_iff, ends_mapM_iff, ends_liftExcept_iff]
  constructor
  · rintro ⟨_, s₁, hopen, cs, s₂, hparts, t', _, ⟨ht', rfl⟩, hleave⟩
    exact ⟨s₁, cs, _, t', hopen, hparts, ht', hleave⟩
  · rintro ⟨s₁, cs, s₂, t', hopen, hparts, ht', hleave⟩
    exact ⟨(), s₁, hopen, cs, s₂, hparts, t', s₂, ⟨ht', rfl⟩, hleave⟩

/-- The visit comes to the tree. -/
def Becomes (env : Env) (options : Options) (v : Tree × Scope) (u : Tree) : Prop :=
  ∃ s s', Ends (transform env options v.1 v.2) s u s'

/-- The visit of the first node, begun in the first state, comes to the second node, whose visit it
begins in the second state. -/
inductive Reaches (env : Env) (options : Options) :
    Tree × Scope → State → Tree × Scope → State → Prop
  | self {v : Tree × Scope} {s : State} : Reaches env options v s v s
  | part {t c : Tree} {scope : Scope} {v : Tree × Scope} {before outs : List Tree}
      {s s₁ s₂ s₃ : State} :
      Ends (opening env options t scope) s () s₁ →
      before ++ [c] <+: parts env t scope →
      Chain (fun c => Ends (transform env options c (inner env t scope))) before s₁ outs s₂ →
      Reaches env options (c, inner env t scope) s₂ v s₃ →
      Reaches env options (t, scope) s v s₃

/-- The visit of the first node, begun in the state `s`, comes to the second node, and the visit of
that to the tree `u`. -/
def BecomesIn (env : Env) (options : Options) (r : Tree × Scope) (s : State) (v : Tree × Scope)
    (u : Tree) : Prop :=
  ∃ s₁ s₂, Reaches env options r s v s₁ ∧ Ends (transform env options v.1 v.2) s₁ u s₂

theorem BecomesIn.becomes {r v : Tree × Scope} {s : State} {u : Tree}
    (h : BecomesIn env options r s v u) : Becomes env options v u := by
  obtain ⟨s₁, s₂, -, hends⟩ := h
  exact ⟨s₁, s₂, hends⟩

/-! ## Nodes outside type tokens -/

theorem isImplDef_of_isTypable (t : Tree) (ht : t.node.isTypable) : t.node.isImplDef = false := by
  cases hnode : t.node <;> simp [hnode, Node.isTypable, Node.isImplDef] at ht ⊢

theorem isTypeToken_eq_false_of_isTypable (ht : t.node.isTypable) : env.isTypeToken t = false := by
  rw [Bool.eq_false_iff]
  intro h
  obtain ⟨_, _, _, _, _, _, _, hnode, -⟩ := Env.isTypeToken_iff.1 h
  rw [hnode] at ht
  cases ht

section

-- a list made of a tree that is the same if a node of a kind that the pass builds is left out
variable {α : Type} {f : Tree → List α}
  (hf : ∀ t, t.node.isTypable → f t = t.children.flatMap f)

include hf

theorem eq_of_assign_eq_ok {t t' : Tree} (h : Typing.assign env t = .ok t') : f t' = f t := by
  refine Typing.assign_induction (motive := fun t t' => f t' = f t) (fun _ _ => rfl)
    (fun t cs symbol ty hty hassign hcs _ => ?_) h
  have ht := Typing.isTypable_of_assign_eq_ok hassign hty
  rw [hf t ht, hf { t.withChildren cs with symbol, ty }
    (by rw [← ht]; exact Node.isTypable_withChildren _ _),
    Tree.children_of_withChildren hcs.length_eq.symm]
  exact (flatMap_congr_of_forall₂ hcs fun c _ c' hc => hc.2.symm).symm

/-- Naming a value adds nothing. -/
theorem flatMap_named (env : Env) (t : Tree) :
    (named env t).children.flatMap f = t.children.flatMap f := by
  unfold named
  split
  next t' ht' =>
    obtain ⟨rhs, callee, args, call, ht, hrhs, hcallee, hcall, rfl⟩ :=
      exists_of_nameValueDef_eq_ok ht'
    rw [Tree.children, Tree.children, ht]
    show f call ++ [] = f rhs ++ []
    rw [eq_of_assign_eq_ok hf (retyped_eq_ok_iff.1 hcall).1, hf _ (by rfl),
      hf rhs (by rw [hrhs]; rfl)]
    simp only [Env.nameCall, Tree.children, Node.children, hrhs, List.flatMap_cons,
      List.flatMap_append, List.flatMap_nil, List.append_nil]
    rw [hf callee hcallee, hf _ (by exact hcallee), hf (.literal _ _) (by rfl)]
    simp [Tree.literal, Tree.children, Node.children]
  next => rfl

/-- The parts of a node add up to its children. -/
theorem flatMap_parts (ht : env.isTypeToken t = false) (scope : Scope) :
    (parts env t scope).flatMap f = t.children.flatMap f := by
  rcases stages_cases env t scope with
    hkept | ⟨hfind, -⟩ | ⟨hfind, -⟩ | ⟨hfind, callee, args, receiver, name, hnode, hcallee⟩
      | ⟨hfind, receiver, name, hnode⟩
  · rw [parts_of_kept hkept]
  · rw [Rule.find?_eq_typeToken_iff.1 hfind] at ht
    cases ht
  · rw [parts_of_enumValueDef hfind]
    exact flatMap_named hf env t
  · rw [parts_of_dynamicApply hfind hnode hcallee, Tree.children, hnode]
    simp only [Node.children, List.flatMap_cons]
    rw [hf callee (by rw [hcallee]; rfl), Tree.children, hcallee]
    simp [Node.children]
  · rw [parts_of_dynamicSelect hfind hnode, Tree.children, hnode]
    rfl

end

section

-- a test that tells apart only what the pass does not build
variable {p : Tree → Bool} (hp : ∀ t, t.node.isTypable → p t = false)

include hp

theorem filter_live_of_isTypable (t : Tree) (ht : t.node.isTypable) :
    (env.live t).filter p = t.children.flatMap fun c => (env.live c).filter p := by
  rw [Env.live_eq, isTypeToken_eq_false_of_isTypable ht,
    List.filter_cons_of_neg (by simp [hp t ht])]
  exact List.filter_flatMap

/-- **What is visited.**  Outside type tokens the pass comes to all the nodes, in order, other than
those of the kinds that it builds. -/
theorem filter_visits (env : Env) (t : Tree) (scope : Scope) :
    ((visits env t scope).map (·.1)).filter p = (env.live t).filter p := by
  induction t, scope using parts_induction env with
  | h t scope ih =>
    have hparts : (((parts env t scope).flatMap (visits env · (inner env t scope))).map
        (·.1)).filter p = (parts env t scope).flatMap fun c => (env.live c).filter p := by
      rw [List.map_flatMap, List.filter_flatMap]
      exact List.flatMap_congr ih
    have hbelow : (parts env t scope).flatMap (fun c => (env.live c).filter p)
        = (if env.isTypeToken t then [] else t.children.flatMap env.live).filter p := by
      cases htoken : env.isTypeToken t with
      | true =>
        rw [parts_of_typeToken (Rule.find?_eq_typeToken_iff.2 htoken)]
        rfl
      | false =>
        rw [flatMap_parts (filter_live_of_isTypable hp) htoken, if_neg (by simp),
          List.filter_flatMap]
    rw [visits_eq, Env.live_eq, List.map_cons, List.filter_cons, List.filter_cons, hparts, hbelow]

end

end Pass

end Interop
