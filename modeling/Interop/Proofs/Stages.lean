import Interop.Pass.Traversal
import Interop.Proofs.Assign
import Interop.Proofs.Rules
import Interop.Proofs.Running

/-!
# The stages of a visit

At every node the pass does the same four things: it opens the node, visits the parts of the node
in order, puts a tree together from what came of them, and leaves it.

    transform t scope  =  opening t;  cs ← parts t in inner t;  rebuild t cs;  leave

`opening` is what the rule writes on entering.  The parts are the children, except that a named
enumeration value has those of its new definition, a dynamic application has its receiver and its
arguments, and a type token has none.  Most rules keep the node around its parts; four do not, and
`stages_cases` tells them apart.
-/

namespace Interop.Pass

variable (env : Env)

/-! ## Algorithm -/

/-- The definition of an enumeration value once it has its name; any other node itself. -/
def named (t : Tree) : Tree :=
  match nameValueDef env t with
  | .ok t' => t'
  | .error _ => t

/-- What is reported on a type token. -/
def tokenReport (options : Options) (t : Tree) : Report :=
  match t.node with
  | .typeApply callee [arg] => (tokenProblem? env options callee arg).toList
  | _ => []

/-- What stands in the place of a type token. -/
def tokenResult (options : Options) (t : Tree) : Except Abort Tree :=
  match t.node with
  | .typeApply callee [arg] =>
    match tokenProblem? env options callee arg with
    | some _ => .ok (.placeholder t.span)
    | none =>
      retyped env "classOf" (.literal (.type (env.table.underlying arg.ty)) t.span) t.ty
  | .typeApply _ _ => .error (unexpected "classOf" "one type argument" t)
  | _ => .error (unexpected "classOf" "type application" t)

/-- What is done before the parts of a node are visited. -/
def opening (options : Options) (t : Tree) (scope : Scope) : PassM Unit :=
  match Rule.find? env t scope with
  | none => pure ()
  | some .typeToken => emit (tokenReport env options t)
  | some .enumValueDef => discard (liftExcept (nameValueDef env t))
  | some rule => rule.enter env t scope

/-- The scope in which the parts of a node are visited. -/
def inner (t : Tree) (scope : Scope) : Scope :=
  match Rule.find? env t scope with
  | none => scope
  | some rule => scope.enter (rule.opens t)

/-- The trees below a node that are visited, in order. -/
def parts (t : Tree) (scope : Scope) : List Tree :=
  match Rule.find? env t scope with
  | some .typeToken => []
  | some .enumValueDef => (named env t).children
  | some .dynamicApply =>
    match t.node with
    | .apply callee args => callee.children ++ args
    | _ => t.children
  | _ => t.children

/-- The tree that takes the place of a node whose parts came to `cs`. -/
def rebuild (options : Options) (t : Tree) (scope : Scope) (cs : List Tree) : Except Abort Tree :=
  match Rule.find? env t scope with
  | some .typeToken => tokenResult env options t
  | some .enumValueDef => .ok ((named env t).withChildren cs)
  | some .dynamicApply =>
    match t.node with
    | .apply callee _ => applyDynamic env t callee (cs.headD default) cs.tail
    | _ => .ok (t.withChildren cs)
  | some .dynamicSelect => selectDynamic env t (cs.headD default)
  | _ => .ok (t.withChildren cs)

/-- The rule keeps the node around its parts. -/
def Rule.keeps : Rule → Bool
  | typeToken | enumValueDef | dynamicApply | dynamicSelect => false
  | _ => true

/-- No rule changes the node. -/
def Kept (t : Tree) (scope : Scope) : Prop :=
  ∀ rule, Rule.find? env t scope = some rule → rule.keeps

/-! ## The stages of the traversal -/

theorem foldToken_eq (options : Options) (t : Tree) :
    foldToken env options t = (do
      emit (tokenReport env options t)
      liftExcept (tokenResult env options t)) := by
  obtain ⟨node, span, ty, symbol⟩ := t
  unfold foldToken tokenResult tokenReport
  cases node with
  | typeApply callee args =>
    match args with
    | [arg] =>
      simp only
      split
      next h =>
        rw [h]
        rfl
      next h => simp [h, emit_nil]
    | [] =>
      rw [emit_nil]
      rfl
    | _ :: _ :: _ =>
      rw [emit_nil]
      rfl
  | _ =>
    rw [emit_nil]
    rfl

/-- **A visit in four stages.** -/
theorem transform_eq (options : Options) (t : Tree) (scope : Scope) :
    transform env options t scope = (do
      opening env options t scope
      let cs ← (parts env t scope).mapM fun c => transform env options c (inner env t scope)
      let t' ← liftExcept (rebuild env options t scope cs)
      leave env t') := by
  rw [transform]
  unfold step opening rebuild parts inner
  split
  next hfind =>
    simp only [hfind]
    rw [Node.mapM_attach (fun c => transform env options c scope)]
    simp [Node.mapM_eq_withChildren, Tree.children, Tree.withChildren, liftExcept]
  next rule hfind =>
    have happ := Rule.applies_of_find?_eq_some hfind
    simp only [hfind]
    cases rule with
    | typeToken =>
      rw [foldToken_eq]
      simp [Rule.enter]
    | enumValueDef =>
      rw [show scope.enter (Rule.enumValueDef.opens t) = scope from Scope.enter_root scope]
      simp only [Rule.enter]
      split
      next e he =>
        simp [he, liftExcept, discard]
        rfl
      next t' ht' =>
        rw [Node.mapM_attach (fun c => transform env options c scope)]
        simp [ht', named, Node.mapM_eq_withChildren, Tree.children, Tree.withChildren, liftExcept,
          discard]
        rfl
    | dynamicApply =>
      obtain ⟨callee, args, ht, hcallee⟩ := Env.isDynamicApply_iff.1 happ
      obtain ⟨receiver, name, hselect, -⟩ := Env.isDynamicSelect_iff.1 hcallee
      rw [show scope.enter (Rule.dynamicApply.opens t) = scope from Scope.enter_root scope]
      simp only [Rule.enter]
      split
      next callee' args' ht' =>
        obtain ⟨rfl, rfl⟩ : callee = callee' ∧ args = args' := by simpa [ht] using ht'
        split
        next receiver' name' hselect' =>
          obtain ⟨rfl, rfl⟩ : receiver = receiver' ∧ name = name' := by
            simpa [hselect] using hselect'
          simp [ht, hselect, Tree.children, Node.children]
        next h => exact absurd hselect (h _ _)
      next h => exact absurd ht (h _ _)
    | dynamicSelect =>
      obtain ⟨receiver, name, hselect, -⟩ := Env.isDynamicSelect_iff.1 happ
      rw [show scope.enter (Rule.dynamicSelect.opens t) = scope from Scope.enter_root scope]
      simp only [Rule.enter]
      split
      next receiver' name' hselect' =>
        obtain ⟨rfl, rfl⟩ : receiver = receiver' ∧ name = name' := by
          simpa [hselect] using hselect'
        simp [hselect, Tree.children, Node.children]
      next h => exact absurd hselect (h _ _)
    | _ =>
      rw [Node.mapM_attach (fun c => transform env options c _)]
      simp [Node.mapM_eq_withChildren, Tree.children, Tree.withChildren, liftExcept]

variable {env} {options : Options} {t : Tree} {scope : Scope} {cs : List Tree}

/-! ## Nodes that are kept -/

theorem kept_of_find? {rule : Rule} (hfind : Rule.find? env t scope = some rule)
    (h : rule.keeps) : Kept env t scope := by
  intro rule' hfind'
  rw [hfind] at hfind'
  cases hfind'
  exact h

theorem parts_of_kept (h : Kept env t scope) : parts env t scope = t.children := by
  unfold parts
  split
  next hfind => cases h _ hfind
  next hfind => cases h _ hfind
  next hfind => cases h _ hfind
  next => rfl

theorem rebuild_of_kept (h : Kept env t scope) :
    rebuild env options t scope cs = .ok (t.withChildren cs) := by
  unfold rebuild
  split
  next hfind => cases h _ hfind
  next hfind => cases h _ hfind
  next hfind => cases h _ hfind
  next hfind => cases h _ hfind
  next => rfl

/-! ## Nodes that are not -/

theorem parts_of_typeToken (h : Rule.find? env t scope = some .typeToken) :
    parts env t scope = [] := by
  unfold parts
  rw [h]

theorem rebuild_of_typeToken (h : Rule.find? env t scope = some .typeToken) :
    rebuild env options t scope cs = tokenResult env options t := by
  unfold rebuild
  rw [h]

theorem parts_of_enumValueDef (h : Rule.find? env t scope = some .enumValueDef) :
    parts env t scope = (named env t).children := by
  unfold parts
  rw [h]

theorem rebuild_of_enumValueDef (h : Rule.find? env t scope = some .enumValueDef) :
    rebuild env options t scope cs = .ok ((named env t).withChildren cs) := by
  unfold rebuild
  rw [h]

theorem parts_of_dynamicApply (h : Rule.find? env t scope = some .dynamicApply) {callee : Tree}
    {args : List Tree} (ht : t.node = .apply callee args) {receiver : Tree} {name : String}
    (hcallee : callee.node = .select receiver name) :
    parts env t scope = receiver :: args := by
  unfold parts
  rw [h]
  simp only [ht]
  rw [Tree.children, hcallee]
  rfl

theorem rebuild_of_dynamicApply (h : Rule.find? env t scope = some .dynamicApply) {callee : Tree}
    {args : List Tree} (ht : t.node = .apply callee args) :
    rebuild env options t scope cs = applyDynamic env t callee (cs.headD default) cs.tail := by
  unfold rebuild
  rw [h]
  simp only [ht]

theorem parts_of_dynamicSelect (h : Rule.find? env t scope = some .dynamicSelect) {receiver : Tree}
    {name : String} (ht : t.node = .select receiver name) :
    parts env t scope = [receiver] := by
  unfold parts
  rw [h]
  simp only
  rw [Tree.children, ht]
  rfl

theorem rebuild_of_dynamicSelect (h : Rule.find? env t scope = some .dynamicSelect) :
    rebuild env options t scope cs = selectDynamic env t (cs.headD default) := by
  unfold rebuild
  rw [h]

/-- **What may become of a node.**  It is kept, or it is one of four things that are not. -/
theorem stages_cases (env : Env) (t : Tree) (scope : Scope) :
    Kept env t scope
    ∨ (Rule.find? env t scope = some .typeToken
        ∧ ∃ callee arg, t.node = .typeApply callee [arg])
    ∨ (Rule.find? env t scope = some .enumValueDef ∧ env.isUnnamedValueDef t)
    ∨ (Rule.find? env t scope = some .dynamicApply
        ∧ ∃ callee args receiver name, t.node = .apply callee args
          ∧ callee.node = .select receiver name)
    ∨ (Rule.find? env t scope = some .dynamicSelect
        ∧ ∃ receiver name, t.node = .select receiver name) := by
  cases hfind : Rule.find? env t scope with
  | none =>
    left
    intro rule h
    rw [hfind] at h
    cases h
  | some rule =>
    have happ := Rule.applies_of_find?_eq_some hfind
    cases rule with
    | typeToken =>
      obtain ⟨callee, _, _, arg, _, _, _, ht, -⟩ := Env.isTypeToken_iff.1 happ
      exact .inr (.inl ⟨rfl, callee, arg, ht⟩)
    | enumValueDef => exact .inr (.inr (.inl ⟨rfl, (Rule.find?_eq_enumValueDef_iff.1 hfind).2⟩))
    | dynamicApply =>
      obtain ⟨callee, args, ht, hcallee⟩ := Env.isDynamicApply_iff.1 happ
      obtain ⟨receiver, name, hselect, -⟩ := Env.isDynamicSelect_iff.1 hcallee
      exact .inr (.inr (.inr (.inl ⟨rfl, callee, args, receiver, name, ht, hselect⟩)))
    | dynamicSelect =>
      obtain ⟨receiver, name, ht, -⟩ := Env.isDynamicSelect_iff.1 happ
      exact .inr (.inr (.inr (.inr ⟨rfl, receiver, name, ht⟩)))
    | _ =>
      left
      intro rule h
      rw [hfind] at h
      cases h
      rfl

/-! ## Named values -/

theorem exists_of_nameValueDef_eq_ok {t' : Tree} (h : nameValueDef env t = .ok t') :
    ∃ rhs callee args call, t.node = .valDef rhs ∧ rhs.node = .apply callee args
      ∧ callee.node.isTypable
      ∧ retyped env "enumeration value"
          (env.nameCall callee args rhs.span (env.valueName t.symbol)) rhs.ty = .ok call
      ∧ t' = { t with node := .valDef call } := by
  unfold nameValueDef at h
  split at h
  next rhs ht =>
    split at h
    next callee args hrhs =>
      split at h
      next hcallee =>
        obtain ⟨call, hcall, h⟩ := Typing.bind_eq_ok.1 h
        cases h
        exact ⟨rhs, callee, args, call, ht, hrhs, by rw [hcallee]; rfl, hcall, rfl⟩
      next hcallee =>
        obtain ⟨call, hcall, h⟩ := Typing.bind_eq_ok.1 h
        cases h
        exact ⟨rhs, callee, args, call, ht, hrhs, by rw [hcallee]; rfl, hcall, rfl⟩
      next => cases h
    next => cases h
  next => cases h

/-- A value stays a value definition when it is named, at its place and with its type. -/
theorem named_of_isUnnamedValueDef (h : env.isUnnamedValueDef t) :
    ∃ rhs, named env t = { t with node := .valDef rhs } := by
  unfold named
  split
  next t' ht' =>
    obtain ⟨_, _, _, call, _, _, _, _, rfl⟩ := exists_of_nameValueDef_eq_ok ht'
    exact ⟨call, rfl⟩
  next =>
    obtain ⟨rhs, _, _, ht, -⟩ := Env.isUnnamedValueDef_iff.1 h
    refine ⟨rhs, ?_⟩
    rw [← ht]
    cases t
    rfl

/-! ## Bounds -/

theorem weight_lt_of_mem_parts {c : Tree} (h : c ∈ parts env t scope) : c.weight < t.weight := by
  rcases stages_cases env t scope with
    hkept | ⟨hfind, -⟩ | ⟨hfind, -⟩ | ⟨hfind, callee, args, receiver, name, ht, hcallee⟩
      | ⟨hfind, receiver, name, ht⟩
  · rw [parts_of_kept hkept] at h
    exact Tree.weight_lt_of_mem_children h
  · rw [parts_of_typeToken hfind] at h
    cases h
  · rw [parts_of_enumValueDef hfind] at h
    unfold named at h
    split at h
    next t' ht' => exact weight_lt_of_nameValueDef env ht' h
    next => exact Tree.weight_lt_of_mem_children h
  · rw [parts_of_dynamicApply hfind ht hcallee] at h
    rcases List.mem_cons.1 h with rfl | h
    · exact weight_receiver_lt ht hcallee
    · refine Tree.weight_lt_of_mem_children ?_
      rw [Tree.children, ht]
      exact List.mem_cons_of_mem _ h
  · rw [parts_of_dynamicSelect hfind ht] at h
    refine Tree.weight_lt_of_mem_children ?_
    rw [Tree.children, ht]
    exact h

end Interop.Pass
