import Interop.Pass.Rule

/-!
# The traversal

`transform` goes down a tree.  At each node it applies the rule for the node, which visits the
parts of the node, and then leaves the node.

    transform t scope  =  step t scope transform  followed by  leave

Most rules keep the node and visit its children in the scope that they open.  An enumeration value
is given its name first and is visited after that; the parts of a dynamic shorthand are visited
first and are then put together in the new way; a type token is not visited at all.
-/

namespace Interop.Pass

variable (env : Env)

/-! ## Trees that take the place of others -/

def unexpected (rule expected : String) (found : Tree) : Abort :=
  .defect (.unexpectedShape rule expected found.node.describe found.span)

/-- A definition of an enumeration value, with the name passed on to the factory. -/
def nameValueDef (t : Tree) : Except Abort Tree :=
  match t.node with
  | .valDef rhs =>
    match rhs.node with
    | .apply callee args =>
      match callee.node with
      | .select _ _ | .ident _ => do
        let call := env.nameCall callee args rhs.span (env.valueName t.symbol)
        return { t with node := .valDef (← retyped env "enumeration value" call rhs.ty) }
      | _ => .error (unexpected "enumeration value" "factory reference" callee)
    | _ => .error (unexpected "enumeration value" "application" rhs)
  | _ => .error (unexpected "enumeration value" "value definition" t)

/-- Why the type token `callee[arg]` gets no class literal. -/
def tokenProblem? (options : Options) (callee arg : Tree) : Option Diagnostic :=
  if !options.foldTokens then
    some (.point .error .unresolvedToken callee.span
      ("This classOf resulted in an unresolved classOf in the interop preparation phase. " ++
        "This is most likely a bug in the compiler. It can be worked around by enabling " ++
        "the `fixClassOf` option."))
  else if !env.isClassType arg.ty then
    some (.point .error .tokenArgument arg.span
      s!"Type {env.table.showTy arg.ty} is not a class type")
  else none

/-- A class literal in place of a type token, or a report and nothing in its place. -/
def foldToken (options : Options) (t : Tree) : PassM Tree := do
  match t.node with
  | .typeApply callee [arg] =>
    match tokenProblem? env options callee arg with
    | some problem =>
      emit [problem]
      return .placeholder t.span
    | none =>
      liftExcept (retyped env "classOf"
        (.literal (.type (env.table.underlying arg.ty)) t.span) t.ty)
  | .typeApply _ _ => throw (unexpected "classOf" "one type argument" t)
  | _ => throw (unexpected "classOf" "type application" t)

/-- The call that stands for `recv.x(args)`. -/
def applyDynamic (t callee receiver : Tree) (args : List Tree) : Except Abort Tree :=
  let call := dynamicCall receiver "applyDynamic" env.lib.applyDynamic callee.span
  retyped env "dynamic application" { node := .apply call args, span := t.span } t.ty

/-- The call that stands for `recv.x`. -/
def selectDynamic (t receiver : Tree) : Except Abort Tree :=
  retyped env "dynamic selection"
    (dynamicCall receiver "selectDynamic" env.lib.selectDynamic t.span) t.ty

/-! ## Bounds -/

theorem weight_of_retyped_eq_ok {rule : String} {t t' : Tree} {expected : Ty}
    (h : retyped env rule t expected = .ok t') : t'.weight = t.weight := by
  unfold retyped at h
  split at h
  next hr =>
    cases h
    exact Typing.weight_of_retype_eq_ok env hr
  all_goals cases h

theorem weight_nameCall (callee : Tree) (args : List Tree) (span : Span) (name : String) :
    (env.nameCall callee args span name).weight
      = 2 + callee.weight + Tree.total Tree.weight args := by
  have hcallee : ∀ ty symbol, { callee with ty, symbol : Tree }.weight = callee.weight := by
    intro ty symbol
    rw [Tree.weight_eq, Tree.weight_eq callee]
    rfl
  have hliteral : (Tree.literal (.str name) span).weight = 1 := by
    rw [Tree.weight_eq]
    rfl
  rw [Tree.weight_eq]
  simp only [Env.nameCall, Tree.ownWeight, Tree.children, Node.children, Tree.total_cons, hcallee,
    Tree.total_append, hliteral, Tree.total_nil]
  omega

/-- A named value has one more node, which the double weight of the definition pays for. -/
theorem weight_lt_of_nameValueDef {t t' : Tree} (h : nameValueDef env t = .ok t') {c : Tree}
    (hc : c ∈ t'.children) : c.weight < t.weight := by
  unfold nameValueDef at h
  split at h
  next rhs ht =>
    split at h
    next callee args hrhs =>
      have hweight : t.weight = 3 + callee.weight + Tree.total Tree.weight args := by
        rw [Tree.weight_eq, Tree.children, ht]
        simp only [Tree.ownWeight, Node.children, Tree.total_cons, Tree.total_nil]
        rw [Tree.weight_eq, Tree.children, hrhs]
        simp only [Tree.ownWeight, Node.children, Tree.total_cons]
        omega
      have hnamed : ∀ name ty call, retyped env "enumeration value"
          (env.nameCall callee args rhs.span name) ty = .ok call → call.weight < t.weight := by
        intro name ty call hcall
        rw [weight_of_retyped_eq_ok env hcall, weight_nameCall]
        omega
      split at h
      all_goals first
        | cases h
        | obtain ⟨call, hcall, h⟩ := Typing.bind_eq_ok.1 h
          cases h
          simp only [Tree.children, Node.children, List.mem_singleton] at hc
          subst hc
          exact hnamed _ _ _ hcall
    next => cases h
  next => cases h

theorem weight_receiver_lt {t callee receiver : Tree} {args : List Tree} {name : String}
    (ht : t.node = .apply callee args) (hcallee : callee.node = .select receiver name) :
    receiver.weight < t.weight := by
  have h₁ : receiver ∈ callee.children := by simp [Tree.children, hcallee, Node.children]
  have h₂ : callee ∈ t.children := by simp [Tree.children, ht, Node.children]
  exact Nat.lt_trans (Tree.weight_lt_of_mem_children h₁) (Tree.weight_lt_of_mem_children h₂)

/-! ## Algorithm -/

/-- Apply the rule for a node, given how to visit lighter trees. -/
def step (options : Options) (t : Tree) (scope : Scope)
    (visit : (c : Tree) → c.weight < t.weight → Scope → PassM Tree) : PassM Tree := do
  match Rule.find? env t scope with
  | none =>
    return { t with
      node := ← t.node.attach.mapM fun ⟨c, hc⟩ =>
        visit c (Tree.weight_lt_of_mem_children hc) scope }
  | some rule =>
    rule.enter env t scope
    match rule with
    | .typeToken => foldToken env options t
    | .enumValueDef =>
      match h : nameValueDef env t with
      | .error e => throw e
      | .ok t' =>
        return { t' with
          node := ← t'.node.attach.mapM fun ⟨c, hc⟩ =>
            visit c (weight_lt_of_nameValueDef env h hc) scope }
    | .dynamicApply =>
      match ht : t.node with
      | .apply callee args =>
        match hcallee : callee.node with
        | .select receiver _ =>
          let receiver ← visit receiver (weight_receiver_lt ht hcallee) scope
          let args ← args.attach.mapM fun ⟨a, ha⟩ =>
            visit a (Tree.weight_lt_of_mem_children (by simp [Tree.children, ht, Node.children, ha])) scope
          liftExcept (applyDynamic env t callee receiver args)
        | _ => throw (unexpected "dynamic application" "selection of `x`" callee)
      | _ => throw (unexpected "dynamic application" "selection of `x`" t)
    | .dynamicSelect =>
      match ht : t.node with
      | .select receiver _ =>
        let receiver ← visit receiver
          (Tree.weight_lt_of_mem_children (by simp [Tree.children, ht, Node.children])) scope
        liftExcept (selectDynamic env t receiver)
      | _ => throw (unexpected "dynamic selection" "selection of `x`" t)
    | _ =>
      let inner := scope.enter (rule.opens t)
      return { t with
        node := ← t.node.attach.mapM fun ⟨c, hc⟩ =>
          visit c (Tree.weight_lt_of_mem_children hc) inner }

/-- Transform a tree that stands in `scope`. -/
def transform (options : Options) (t : Tree) (scope : Scope) : PassM Tree := do
  leave env (← step env options t scope fun c _ scope => transform options c scope)
termination_by t.weight

end Interop.Pass
