import Interop.Proofs.Rewrites
import Interop.Proofs.Visits

/-!
# Units whose types fit

A unit is `Fit` if its shorthands, the values to be named and its type tokens have types that suit
what they become.  The visit of a node of a fit unit still breaks off in four cases (`breaksOff`):

* a dynamic application has a reported type token for an argument,
* the definition of a value to be named is a dynamic application,
* the function of a factory call is a dynamic selection whose type a dynamic value does not fit,
* an exported constructor has no class.

In all others the parts of the node are fit again (`Fit.part`), also those of a definition that was
given its name, since naming brings only plain nodes.
-/

namespace Interop

/-! ## Algorithm -/

/-- The children of a node, other than the function of a dynamic application. -/
def Env.operands (env : Env) (t : Tree) : List Tree :=
  if env.isDynamicApply t then t.children.tail else t.children

/-- The nodes that stand for values of their own: all but the functions of dynamic applications. -/
def Env.standalone (env : Env) (t : Tree) : List Tree := t :: t.preorder.flatMap env.operands

namespace Pass

/-- The types in a unit suit what the pass makes of it. -/
structure Fit (env : Env) (t : Tree) (scope : Scope) : Prop where
  /-- dynamic values fit where shorthands stand -/
  shorthands : ∀ u ∈ env.standalone t, env.isDynamicApply u ∨ env.isDynamicSelect u →
    env.conforms env.dynamicTy u.ty
  /-- what a shorthand is applied to has types -/
  arguments : ∀ u ∈ t.preorder, env.isDynamicApply u → ∀ c ∈ u.children.tail, c.ty ≠ .noType
  /-- values of an enumeration can be named -/
  values : ∀ v ∈ visits env t scope, v.2.inEnumSubclass → env.isUnnamedValueDef v.1 →
    isNameable env v.1
  /-- class literals fit where type tokens stand -/
  tokens : ∀ u ∈ t.preorder, env.isTypeToken u → env.conforms env.tokenTy u.ty

/-- The visit of a node of a fit unit comes to no end. -/
def breaksOff (env : Env) (options : Options) (a : Annotations) (t : Tree) (scope : Scope) : Bool :=
  match Rule.find? env t scope, t.node with
  | some .method, _ => (env.exportMembers? a t.symbol).isNone
  | some .enumValueDef, .valDef rhs => env.isDynamicApply rhs
  | some .unnamedCall, .apply callee _ | some .nullNamedCall, .apply callee _ =>
    env.isDynamicSelect callee && !env.conforms env.dynamicTy callee.ty
  | some .dynamicApply, .apply _ args =>
    args.any fun arg => env.isTypeToken arg && !(tokenReport env options arg).isEmpty
  | _, _ => false

variable {env : Env} {options : Options} {a : Annotations} {t : Tree} {scope : Scope}

/-! ## Named values -/

/-- The definition of a value to be named. -/
theorem exists_typedNameCall (henv : env.Installed)
    (hfind : Rule.find? env t scope = some .enumValueDef) (hvalue : env.isUnnamedValueDef t)
    (h : isNameable env t) :
    ∃ rhs callee args, t.node = .valDef rhs ∧ rhs.node = .apply callee args
      ∧ callee.node.isReference ∧ (∃ t', nameValueDef env t = .ok t')
      ∧ parts env t scope
          = [typedNameCall env callee args rhs.span (env.valueName t.symbol)] := by
  obtain ⟨rhs, callee, args, ht, hrhs, hcallee, -⟩ := Env.isUnnamedValueDef_iff.1 hvalue
  have hok := nameValueDef_eq_ok henv ht hrhs hcallee h
  refine ⟨rhs, callee, args, ht, hrhs, hcallee, ⟨_, hok⟩, ?_⟩
  rw [parts_of_enumValueDef hfind]
  unfold named
  rw [hok]
  rfl

/-- With its name a call is a dynamic application or no shorthand at all. -/
theorem find?_typedNameCall (henv : env.Installed) {callee : Tree} {args : List Tree} {span : Span}
    {name : String} (h : env.isDynamicSelect callee) :
    Rule.find? env (typedNameCall env callee args span name) scope = some .dynamicApply := by
  obtain ⟨receiver, x, hcallee, -⟩ := Env.isDynamicSelect_iff.1 h
  have hcall := isUnnamedCall_typedNameCall henv args span name (by rw [hcallee]; rfl)
  have hnull := isNullNamedCall_typedNameCall env callee args span name
  have hdynamic : env.isDynamicApply (typedNameCall env callee args span name) :=
    Env.isDynamicApply_iff.2 ⟨_, _, rfl, (Env.isDynamicSelect_congr rfl).trans h⟩
  rw [Rule.find?_eq_candidates]
  show List.find? (Rule.applies env _ scope) [.unnamedCall, .nullNamedCall, .dynamicApply] = _
  simp [Rule.applies, hcall, hnull, hdynamic]

/-! ## Parts of a fit unit -/

/-- The children of what is no dynamic application all stand for values of their own. -/
theorem mem_standalone_of_mem_children {u c : Tree} (hu : u ∈ t.preorder)
    (hnot : env.isDynamicApply u = false) (hc : c ∈ u.children) : c ∈ env.standalone t := by
  refine .tail _ (List.mem_flatMap.2 ⟨u, hu, ?_⟩)
  unfold Env.operands
  rw [hnot]
  exact hc

theorem mem_standalone_of_mem_args {callee arg : Tree} {args : List Tree}
    (ht : t.node = .apply callee args) (h : arg ∈ args) : arg ∈ env.standalone t := by
  refine .tail _ (List.mem_flatMap.2 ⟨t, t.mem_preorder_self, ?_⟩)
  unfold Env.operands
  split
  next =>
    rw [Tree.children, ht]
    exact h
  next => exact Tree.arg_mem_children ht h

theorem mem_children_of_mem_operands {c : Tree} (hc : c ∈ env.operands t) : c ∈ t.children := by
  unfold Env.operands at hc
  split at hc
  next => exact List.mem_of_mem_tail hc
  next => exact hc

/-- The node is neither a shorthand nor a type token. -/
def Plain (env : Env) (t : Tree) : Prop :=
  env.isDynamicApply t = false ∧ env.isDynamicSelect t = false ∧ env.isTypeToken t = false

/-- Only plain nodes come with the name of a value. -/
theorem mem_preorder_typedNameCall {callee : Tree} {args : List Tree} {span : Span} {name : String}
    (hcallee : callee.node.isReference)
    (hselect : env.isDynamicSelect callee = false) {u : Tree}
    (hu : u ∈ (typedNameCall env callee args span name).preorder) :
    (Plain env u ∧ ∀ c ∈ u.children, Plain env c ∨ c ∈ callee.children ++ args)
      ∨ ∃ c ∈ callee.children ++ args, u ∈ c.preorder := by
  have hfactory : ∀ f : Tree, f.node = callee.node → Plain env f := by
    intro f hf
    have hreference : f.node.isReference := by rwa [hf]
    exact ⟨Env.isDynamicApply_of_isReference hreference,
      (Env.isDynamicSelect_congr hf).trans hselect,
      isTypeToken_eq_false_of_isTypable (isTypable_of_isReference hreference)⟩
  have hliteral : ∀ l : Tree, l.node = .literal (.str name) → Plain env l := fun l hl =>
    ⟨Env.isDynamicApply_eq_false (by simp [hl]), Env.isDynamicSelect_eq_false (by simp [hl]),
      isTypeToken_eq_false_of_isTypable (by rw [hl]; rfl)⟩
  rw [Tree.preorder_eq, List.mem_cons, List.mem_flatMap] at hu
  rcases hu with rfl | ⟨c, hc, hu⟩
  · refine .inl ⟨⟨?_, Env.isDynamicSelect_eq_false (by simp [typedNameCall]),
      isTypeToken_eq_false_of_isTypable rfl⟩, fun c hc => ?_⟩
    · exact (hfactory _ rfl).2.1
    · rcases List.mem_cons.1 hc with rfl | hc
      · exact .inl (hfactory _ rfl)
      · rcases List.mem_append.1 hc with hc | hc
        · exact .inr (List.mem_append_right _ hc)
        · rw [List.mem_singleton.1 hc]
          exact .inl (hliteral _ rfl)
  · rcases List.mem_cons.1 hc with rfl | hc
    · rw [Tree.preorder_eq, List.mem_cons, List.mem_flatMap] at hu
      rcases hu with rfl | ⟨c, hc, hu⟩
      · exact .inl ⟨hfactory _ rfl, fun c hc => .inr (List.mem_append_left _ hc)⟩
      · exact .inr ⟨c, List.mem_append_left _ hc, hu⟩
    · rcases List.mem_append.1 hc with hc | hc
      · exact .inr ⟨c, List.mem_append_right _ hc, hu⟩
      · rw [List.mem_singleton.1 hc, Tree.preorder_eq] at hu
        rw [List.mem_singleton.1 hu]
        exact .inl ⟨hliteral _ rfl, List.forall_mem_nil _⟩

namespace Fit

/-- A part of a fit unit is fit, if it brings only plain nodes with it, and dynamic values fit in
its place when it is a shorthand. -/
theorem of_preorder (h : Fit env t scope) {c : Tree} (hc : c ∈ parts env t scope)
    (hself : env.isDynamicApply c ∨ env.isDynamicSelect c → env.conforms env.dynamicTy c.ty)
    (hbelow : ∀ u ∈ c.preorder, (Plain env u ∧ ∀ d ∈ u.children, Plain env d ∨ d ∈ env.standalone t)
      ∨ u ∈ t.preorder) : Fit env c (inner env t scope) where
  shorthands u hu hshort := by
    rcases List.mem_cons.1 hu with rfl | hu
    · exact hself hshort
    · obtain ⟨w, hw, hu⟩ := List.mem_flatMap.1 hu
      rcases hbelow w hw with ⟨-, hchildren⟩ | hw
      · rcases hchildren u (mem_children_of_mem_operands hu) with ⟨happly, hselect, -⟩ | hu
        · rw [happly, hselect] at hshort
          simp at hshort
        · exact h.shorthands u hu hshort
      · exact h.shorthands u (.tail _ (List.mem_flatMap.2 ⟨w, hw, hu⟩)) hshort
  arguments u hu hshort := by
    rcases hbelow u hu with ⟨⟨happly, -⟩, -⟩ | hu
    · rw [happly] at hshort
      cases hshort
    · exact h.arguments u hu hshort
  values v hv := h.values v (visits_subset_of_mem_parts hc hv)
  tokens u hu htoken := by
    rcases hbelow u hu with ⟨⟨-, -, hnot⟩, -⟩ | hu
    · rw [hnot] at htoken
      cases htoken
    · exact h.tokens u hu htoken

/-- A part that stands below a fit node is fit. -/
theorem of_mem_standalone (h : Fit env t scope) {c : Tree} (hc : c ∈ parts env t scope)
    (hstandalone : c ∈ env.standalone t) (hsub : c.preorder ⊆ t.preorder) :
    Fit env c (inner env t scope) :=
  h.of_preorder hc (h.shorthands c hstandalone) fun _ hu => .inr (hsub hu)

/-- A value that is to get its name can be named. -/
theorem isNameable (h : Fit env t scope) (hfind : Rule.find? env t scope = some .enumValueDef) :
    env.isUnnamedValueDef t ∧ Pass.isNameable env t := by
  obtain ⟨hscope, hvalue⟩ := Rule.find?_eq_enumValueDef_iff.1 hfind
  exact ⟨hvalue, h.values _ (mem_visits_self env t scope) hscope hvalue⟩

theorem part_of_kept (h : Fit env t scope) (hkept : Kept env t scope)
    (hbreaks : breaksOff env options a t scope = false) {c : Tree} (hc : c ∈ parts env t scope) :
    Fit env c (inner env t scope) := by
  have hc' : c ∈ t.children := parts_of_kept hkept ▸ hc
  have hsub := Tree.preorder_subset_of_mem_children hc'
  by_cases hdynamic : env.isDynamicApply t
  · obtain ⟨callee, args, ht, hselect⟩ := Env.isDynamicApply_iff.1 hdynamic
    -- the function of a factory call is rewritten on its own
    have hconf : env.conforms env.dynamicTy callee.ty := by
      unfold breaksOff at hbreaks
      rw [ht] at hbreaks
      rcases Rule.find?_of_isDynamicApply hdynamic scope with hfind | hfind | hfind
      · rw [hfind] at hbreaks
        simpa [hselect] using hbreaks
      · rw [hfind] at hbreaks
        simpa [hselect] using hbreaks
      · cases hkept _ hfind
    rw [Tree.children, ht] at hc'
    rcases List.mem_cons.1 hc' with rfl | hargs
    · exact h.of_preorder hc (fun _ => hconf) fun _ hu => .inr (hsub hu)
    · exact h.of_mem_standalone hc (mem_standalone_of_mem_args ht hargs) hsub
  · exact h.of_mem_standalone hc (mem_standalone_of_mem_children t.mem_preorder_self
      (Bool.eq_false_iff.2 hdynamic) hc') hsub

theorem part_of_enumValueDef (henv : env.Installed) (h : Fit env t scope)
    (hfind : Rule.find? env t scope = some .enumValueDef)
    (hbreaks : breaksOff env options a t scope = false) {c : Tree} (hc : c ∈ parts env t scope) :
    Fit env c (inner env t scope) := by
  obtain ⟨hvalue, hname⟩ := h.isNameable hfind
  obtain ⟨rhs, callee, args, ht, hrhs, hcallee, -, hparts⟩ :=
    exists_typedNameCall henv hfind hvalue hname
  have hdynamic : env.isDynamicApply rhs = false := by
    unfold breaksOff at hbreaks
    rw [hfind, ht] at hbreaks
    exact hbreaks
  have hselect : env.isDynamicSelect callee = false := by
    unfold Env.isDynamicApply at hdynamic
    rw [hrhs] at hdynamic
    exact hdynamic
  have hcalleeApply : env.isDynamicApply callee = false :=
    Env.isDynamicApply_of_isReference hcallee
  have hrhsSub : rhs.preorder ⊆ t.preorder :=
    Tree.preorder_subset_of_mem_children (Tree.rhs_mem_children ht)
  have hcalleeSub : callee.preorder ⊆ t.preorder :=
    List.Subset.trans (Tree.preorder_subset_of_mem_children (Tree.callee_mem_children hrhs)) hrhsSub
  -- what the call has of the source stood for values there
  have hsource : ∀ d ∈ callee.children ++ args, d ∈ env.standalone t ∧ d.preorder ⊆ t.preorder := by
    intro d hd
    rcases List.mem_append.1 hd with hd | hd
    · exact ⟨mem_standalone_of_mem_children (hcalleeSub callee.mem_preorder_self) hcalleeApply hd,
        List.Subset.trans (Tree.preorder_subset_of_mem_children hd) hcalleeSub⟩
    · have hd := Tree.arg_mem_children hrhs hd
      exact ⟨mem_standalone_of_mem_children (hrhsSub rhs.mem_preorder_self) hdynamic hd,
        List.Subset.trans (Tree.preorder_subset_of_mem_children hd) hrhsSub⟩
  have hbelow : ∀ u ∈ (typedNameCall env callee args rhs.span (env.valueName t.symbol)).preorder,
      (Plain env u ∧ ∀ d ∈ u.children, Plain env d ∨ d ∈ env.standalone t) ∨ u ∈ t.preorder := by
    intro u hu
    rcases mem_preorder_typedNameCall hcallee hselect hu with ⟨hplain, hchildren⟩ | ⟨d, hd, hu⟩
    · exact .inl ⟨hplain, fun d hd => (hchildren d hd).imp id fun hd => (hsource d hd).1⟩
    · exact .inr ((hsource d hd).2 hu)
  have hnot : env.isDynamicApply
      (typedNameCall env callee args rhs.span (env.valueName t.symbol)) = false :=
    (Env.isDynamicSelect_congr rfl).trans hselect
  have hcall := hc
  rw [hparts, List.mem_singleton] at hcall
  subst hcall
  refine h.of_preorder hc (fun hshort => ?_) hbelow
  rw [hnot, Env.isDynamicSelect_eq_false (by simp [typedNameCall])] at hshort
  simp at hshort

theorem part_of_dynamicApply (h : Fit env t scope)
    (hfind : Rule.find? env t scope = some .dynamicApply) {callee receiver : Tree}
    {args : List Tree} {name : String} (ht : t.node = .apply callee args)
    (hcallee : callee.node = .select receiver name) {c : Tree} (hc : c ∈ parts env t scope) :
    Fit env c (inner env t scope) := by
  have hsub := preorder_subset_of_mem_parts (by simp [hfind]) hc
  have hc' := hc
  rw [parts_of_dynamicApply hfind ht hcallee] at hc'
  rcases List.mem_cons.1 hc' with rfl | hargs
  · exact h.of_mem_standalone hc
      (mem_standalone_of_mem_children
        (Tree.mem_preorder_of_mem_children (Tree.callee_mem_children ht))
        (Env.isDynamicApply_eq_false (by simp [hcallee])) (Tree.qualifier_mem_children hcallee))
      hsub
  · exact h.of_mem_standalone hc (mem_standalone_of_mem_args ht hargs) hsub

/-- **The parts of a fit node are fit**, unless its visit breaks off. -/
theorem part (henv : env.Installed) (h : Fit env t scope)
    (hbreaks : breaksOff env options a t scope = false) {c : Tree} (hc : c ∈ parts env t scope) :
    Fit env c (inner env t scope) := by
  rcases stages_cases env t scope with
    hkept | ⟨hfind, -⟩ | ⟨hfind, -⟩ | ⟨hfind, callee, args, receiver, name, ht, hcallee⟩
      | ⟨hfind, receiver, name, ht⟩
  · exact h.part_of_kept hkept hbreaks hc
  · rw [parts_of_typeToken hfind] at hc
    cases hc
  · exact part_of_enumValueDef henv h hfind hbreaks hc
  · exact h.part_of_dynamicApply hfind ht hcallee hc
  · have hc' : c ∈ t.children := by
      rw [parts_of_dynamicSelect hfind ht] at hc
      rw [List.mem_singleton.1 hc]
      exact Tree.qualifier_mem_children ht
    exact h.of_mem_standalone hc (mem_standalone_of_mem_children t.mem_preorder_self
      (Env.isDynamicApply_eq_false (by simp [ht])) hc') (Tree.preorder_subset_of_mem_children hc')

end Fit

end Pass

end Interop
