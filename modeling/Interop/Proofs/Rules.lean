import Interop.Pass.Rule

/-!
# The rule for a node

Only few conditions can hold of a node of a given shape (`candidates`), and the rule for the node is
the first of these whose condition does (`find?_eq_candidates`).  So a selection gets a rule only if
it is a dynamic shorthand, a type application only if it is a type token, and every declaration that
extends the marker type is either checked or refused.
-/

namespace Interop

/-- The node refers to something by its name. -/
def Node.isReference {α : Type} : Node α → Bool
  | select _ _ | ident _ => true
  | _ => false

theorem Node.isReference_iff {α : Type} {n : Node α} :
    n.isReference ↔ (∃ qualifier name, n = .select qualifier name) ∨ ∃ name, n = .ident name := by
  cases n <;> simp [isReference]

namespace Env

variable {env : Env} {t : Tree}

theorem isDynamicSelect_iff :
    env.isDynamicSelect t ↔ ∃ receiver name, t.node = .select receiver name
      ∧ Name.decode name = shorthandName
      ∧ env.table.typeSymbol receiver.ty = some env.lib.jsDynamic := by
  unfold isDynamicSelect
  split
  next receiver name ht =>
    rw [Bool.and_eq_true, decide_eq_true_eq, decide_eq_true_eq, ht]
    constructor
    · rintro ⟨hname, hty⟩
      exact ⟨receiver, name, rfl, hname, hty⟩
    · rintro ⟨_, _, ⟨rfl, rfl⟩, hname, hty⟩
      exact ⟨hname, hty⟩
  next h =>
    constructor
    · intro hfalse
      cases hfalse
    · rintro ⟨receiver, name, ht, -⟩
      exact absurd ht (h receiver name)

theorem isDynamicApply_iff :
    env.isDynamicApply t ↔ ∃ callee args, t.node = .apply callee args
      ∧ env.isDynamicSelect callee := by
  unfold isDynamicApply
  split
  next callee args ht =>
    rw [ht]
    constructor
    · intro h
      exact ⟨callee, args, rfl, h⟩
    · rintro ⟨_, _, ⟨rfl, rfl⟩, h⟩
      exact h
  next h =>
    constructor
    · intro hfalse
      cases hfalse
    · rintro ⟨callee, args, ht, -⟩
      exact absurd ht (h callee args)

theorem isDynamicSelect_congr {u : Tree} (h : u.node = t.node) :
    env.isDynamicSelect u = env.isDynamicSelect t := by
  unfold isDynamicSelect
  rw [h]

theorem isDynamicApply_eq_false (h : ∀ callee args, t.node ≠ .apply callee args) :
    env.isDynamicApply t = false := by
  rw [Bool.eq_false_iff]
  intro hdynamic
  obtain ⟨callee, args, ht, -⟩ := isDynamicApply_iff.1 hdynamic
  exact h callee args ht

theorem isDynamicApply_of_isReference (ht : t.node.isReference) : env.isDynamicApply t = false := by
  refine isDynamicApply_eq_false fun _ _ hnode => ?_
  rw [hnode] at ht
  cases ht

theorem isDynamicSelect_eq_false (h : ∀ receiver name, t.node ≠ .select receiver name) :
    env.isDynamicSelect t = false := by
  rw [Bool.eq_false_iff]
  intro hdynamic
  obtain ⟨receiver, name, ht, -⟩ := isDynamicSelect_iff.1 hdynamic
  exact h receiver name ht

theorem isTypeToken_iff :
    env.isTypeToken t ↔ ∃ callee predef host arg name predefName hostName,
      t.node = .typeApply callee [arg] ∧ callee.node = .select predef name
        ∧ predef.node = .select host predefName ∧ host.node = .this hostName
        ∧ callee.symbol = some env.lib.classOf ∧ predef.symbol = some env.lib.predef
        ∧ host.symbol = some env.lib.hostPackage := by
  constructor
  · intro h
    unfold isTypeToken at h
    split at h
    next hostName _ _ host predefName _ _ predef name _ _ method arg ht =>
      simp only [Bool.and_eq_true, decide_eq_true_eq] at h
      exact ⟨_, _, _, arg, name, predefName, hostName, ht, rfl, rfl, rfl, h.1.1, h.1.2, h.2⟩
    next => cases h
  · rintro ⟨⟨_, _, _, _⟩, ⟨_, _, _, _⟩, ⟨_, _, _, _⟩, arg, name, predefName, hostName, ht, rfl, rfl,
      rfl, rfl, rfl, rfl⟩
    unfold isTypeToken
    rw [ht]
    simp

theorem isUnnamedValueDef_iff :
    env.isUnnamedValueDef t ↔ ∃ rhs callee args, t.node = .valDef rhs
      ∧ rhs.node = .apply callee args ∧ callee.node.isReference
      ∧ env.isUnnamedFactory callee.symbol := by
  constructor
  · intro h
    unfold isUnnamedValueDef at h
    split at h
    next receiver name _ _ factory args _ _ _ ht => exact ⟨_, _, args, ht, rfl, rfl, h⟩
    next name _ _ factory args _ _ _ ht => exact ⟨_, _, args, ht, rfl, rfl, h⟩
    next => cases h
  · rintro ⟨⟨_, _, _, _⟩, ⟨_, _, _, _⟩, args, ht, rfl, hcallee, h⟩
    rcases Node.isReference_iff.1 hcallee with ⟨receiver, name, rfl⟩ | ⟨name, rfl⟩
    all_goals
      unfold isUnnamedValueDef
      rw [ht]
      exact h

end Env

namespace Pass.Rule

variable {env : Env} {t : Tree} {scope : Scope} {rule : Rule}

/-- The rules whose condition can hold of a node of this shape, in the order in which they are
tried. -/
def candidates {α : Type} : Node α → List Rule
  | .classDef _ => [jsAnyClass, innerDef, jsAnyDef, enumImpl, enumClass, hostClass]
  | .objectDef _ => [innerDef, jsAnyDef, enumObject, object]
  | .valDef _ => [enumValueDef]
  | .defDef _ _ => [method]
  | .apply _ _ => [unnamedCall, nullNamedCall, dynamicApply]
  | .typeApply _ _ => [typeToken]
  | .select _ _ => [dynamicSelect]
  | _ => []

theorem filter_all_mem_candidates (n : Node Tree) :
    all.filter (· ∈ candidates n) = candidates n := by
  cases n <;> rfl

theorem mem_candidates_of_applies (h : rule.applies env t scope) : rule ∈ candidates t.node := by
  unfold applies at h
  cases rule with
  | typeToken =>
    obtain ⟨_, _, _, _, _, _, _, ht, -⟩ := Env.isTypeToken_iff.1 h
    simp [ht, candidates]
  | dynamicApply =>
    obtain ⟨_, _, ht, -⟩ := Env.isDynamicApply_iff.1 h
    simp [ht, candidates]
  | dynamicSelect =>
    obtain ⟨_, _, ht, -⟩ := Env.isDynamicSelect_iff.1 h
    simp [ht, candidates]
  | enumValueDef =>
    rw [Bool.and_eq_true] at h
    obtain ⟨_, _, _, ht, -⟩ := Env.isUnnamedValueDef_iff.1 h.2
    simp [ht, candidates]
  | unnamedCall =>
    simp only [Bool.and_eq_true, Env.isUnnamedCall] at h
    split at h
    next ht => simp [ht, candidates]
    next => cases h.2
  | nullNamedCall =>
    simp only [Bool.and_eq_true, Env.isNullNamedCall] at h
    split at h
    next ht => simp [ht, candidates]
    next => cases h.2
  | _ =>
    revert h
    cases t.node <;>
      simp [candidates, Node.isClassDef, Node.isObjectDef, Node.isImplDef, Node.isDefDef]

/-- The rule for a node is the first candidate whose condition holds. -/
theorem find?_eq_candidates (env : Env) (t : Tree) (scope : Scope) :
    find? env t scope = (candidates t.node).find? (applies env t scope) := by
  unfold find?
  rw [← filter_all_mem_candidates t.node, List.find?_filter]
  congr 1
  funext rule
  by_cases h : rule.applies env t scope
  · simp [h, mem_candidates_of_applies h]
  · simp [h]

theorem applies_of_find?_eq_some (h : find? env t scope = some rule) : rule.applies env t scope :=
  List.find?_some h

theorem mem_candidates_of_find?_eq_some (h : find? env t scope = some rule) :
    rule ∈ candidates t.node :=
  mem_candidates_of_applies (applies_of_find?_eq_some h)

theorem find?_eq_typeToken_iff : find? env t scope = some .typeToken ↔ env.isTypeToken t := by
  constructor
  · exact applies_of_find?_eq_some
  · intro h
    obtain ⟨_, _, _, _, _, _, _, ht, -⟩ := Env.isTypeToken_iff.1 h
    rw [find?_eq_candidates, ht]
    show List.find? (applies env t scope) [typeToken] = some typeToken
    rw [List.find?_cons_of_pos (show typeToken.applies env t scope from h)]

theorem find?_eq_dynamicSelect_iff :
    find? env t scope = some .dynamicSelect ↔ env.isDynamicSelect t := by
  constructor
  · exact applies_of_find?_eq_some
  · intro h
    obtain ⟨_, _, ht, -⟩ := Env.isDynamicSelect_iff.1 h
    rw [find?_eq_candidates, ht]
    show List.find? (applies env t scope) [dynamicSelect] = some dynamicSelect
    rw [List.find?_cons_of_pos (show dynamicSelect.applies env t scope from h)]

/-- The application of a dynamic value is rewritten, or it is a factory call. -/
theorem find?_of_isDynamicApply (h : env.isDynamicApply t) (scope : Scope) :
    find? env t scope = some .unnamedCall ∨ find? env t scope = some .nullNamedCall
      ∨ find? env t scope = some .dynamicApply := by
  obtain ⟨callee, args, ht, -⟩ := Env.isDynamicApply_iff.1 h
  have hdynamic : dynamicApply.applies env t scope := h
  rw [find?_eq_candidates, ht]
  simp only [candidates, List.find?_cons, hdynamic]
  cases unnamedCall.applies env t scope <;> cases nullNamedCall.applies env t scope <;> simp

theorem find?_eq_unnamedCall_iff : Rule.find? env t scope = some .unnamedCall
    ↔ scope.inEnumImpl = false ∧ env.isUnnamedCall t := by
  constructor
  · intro h
    simpa [applies] using applies_of_find?_eq_some h
  · rintro ⟨hscope, hcall⟩
    have happ : unnamedCall.applies env t scope := by simp [applies, hscope, hcall]
    cases hnode : t.node with
    | apply callee args =>
      rw [find?_eq_candidates, hnode]
      show List.find? (applies env t scope) [unnamedCall, nullNamedCall, dynamicApply] = _
      rw [List.find?_cons_of_pos happ]
    | _ => simp [Env.isUnnamedCall, hnode] at hcall

theorem find?_eq_nullNamedCall_iff : Rule.find? env t scope = some .nullNamedCall
    ↔ scope.inEnumImpl = false ∧ env.isUnnamedCall t = false ∧ env.isNullNamedCall t := by
  constructor
  · intro h
    have happ := applies_of_find?_eq_some h
    simp only [applies, Bool.and_eq_true, Bool.not_eq_true'] at happ
    refine ⟨happ.1, Bool.eq_false_iff.2 fun hcall => ?_, happ.2⟩
    rw [find?_eq_unnamedCall_iff.2 ⟨happ.1, hcall⟩] at h
    cases h
  · rintro ⟨hscope, hunnamed, hcall⟩
    cases hnode : t.node with
    | apply callee args =>
      rw [find?_eq_candidates, hnode]
      show List.find? (applies env t scope) [unnamedCall, nullNamedCall, dynamicApply] = _
      rw [List.find?_cons_of_neg (by simp [applies, hunnamed]),
        List.find?_cons_of_pos (by simp [applies, hscope, hcall])]
    | _ => simp [Env.isNullNamedCall, hnode] at hcall

theorem find?_eq_enumValueDef_iff : Rule.find? env t scope = some .enumValueDef
    ↔ scope.inEnumSubclass ∧ env.isUnnamedValueDef t := by
  constructor
  · intro h
    simpa [applies] using applies_of_find?_eq_some h
  · rintro ⟨hscope, hvalue⟩
    obtain ⟨rhs, _, _, hnode, -⟩ := Env.isUnnamedValueDef_iff.1 hvalue
    rw [find?_eq_candidates, hnode]
    show List.find? (applies env t scope) [enumValueDef] = _
    rw [List.find?_cons_of_pos (by simp [applies, hscope, hvalue])]

/-- Methods are looked at for their exports. -/
theorem find?_eq_method_iff : find? env t scope = some .method ↔ t.node.isDefDef := by
  constructor
  · exact applies_of_find?_eq_some
  · intro h
    rw [find?_eq_candidates]
    cases hnode : t.node with
    | defDef params rhs =>
      show List.find? (applies env t scope) [method] = some method
      rw [List.find?_cons_of_pos (show method.applies env t scope from h)]
    | _ =>
      rw [hnode] at h
      cases h

/-- Only declarations are checked or refused. -/
theorem isImplDef_of_find?_eq_some (h : find? env t scope = some rule)
    (hrule : rule = .jsAnyClass ∨ rule = .innerDef ∨ rule = .jsAnyDef) : t.node.isImplDef := by
  have hmem := mem_candidates_of_find?_eq_some h
  rcases hrule with rfl | rfl | rfl
  all_goals
    cases ht : t.node <;> simp [ht, candidates, Node.isImplDef] at hmem ⊢

/-- A declaration that extends the marker type is checked or refused. -/
theorem find?_of_isJsAny (ht : t.node.isImplDef) (hjs : env.isJsAny t.symbol) (scope : Scope) :
    find? env t scope = some .jsAnyClass ∨ find? env t scope = some .innerDef
      ∨ find? env t scope = some .jsAnyDef := by
  have hdef : jsAnyDef.applies env t scope := by simp [applies, ht, hjs]
  rw [find?_eq_candidates]
  cases hnode : t.node with
  | classDef template =>
    simp only [candidates, List.find?_cons, hdef]
    cases jsAnyClass.applies env t scope <;> cases innerDef.applies env t scope <;> simp
  | objectDef template =>
    simp only [candidates, List.find?_cons, hdef]
    cases innerDef.applies env t scope <;> simp
  | _ =>
    rw [hnode] at ht
    cases ht

end Pass.Rule

end Interop
