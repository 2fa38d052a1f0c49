import Interop.Proofs.Rewrites

/-!
# Shorthands that come to light

A selection of `x` is rewritten if the value it selects from is dynamic before the rewriting.  The
value may have another type afterwards: the call that a shorthand becomes is dynamic whatever the
shorthand's own type was, and typing gives types to nodes that had none.  `exposed t scope` lists
the selections of `x` that are no shorthands in the source and are shorthands after that,

    exposed t  =  t itself, if it selects `x` from a part of final type `js.Dynamic`
                  ++  exposed of each part

and is computed from the source alone.  The flag `typing` says whether the tree is in a place that
is typed again, which is so for the parts of a dynamic shorthand, and from an untyped node passes
to its parts.
-/

namespace Interop.Pass

variable (env : Env) (options : Options)

/-! ## Algorithm -/

/-- The type of what takes the place of a node. -/
def resultTy (t : Tree) (scope : Scope) : Ty :=
  match Rule.find? env t scope with
  | some .dynamicApply | some .dynamicSelect => env.dynamicTy
  | some .typeToken => if tokenReport env options t = [] then env.tokenTy else .noType
  | _ => t.ty

/-- The type that typing gives to what takes the place of a node. -/
def typedTy (t : Tree) (scope : Scope) : Ty :=
  if resultTy env options t scope ≠ .noType then resultTy env options t scope
  else
    let parts : List Tree := t.children.attach.map fun ⟨c, _⟩ =>
      { Tree.placeholder {} with ty := typedTy c (inner env t scope) }
    match Typing.resolve env (t.withChildren parts) with
    | .ok (_, ty) => ty
    | .error _ => .noType
termination_by sizeOf t
decreasing_by exact Tree.sizeOf_lt_of_mem_children ‹_›

/-- The type of what takes the place of a node, in the end. -/
def finalTy (typing : Bool) (t : Tree) (scope : Scope) : Ty :=
  if typing then typedTy env options t scope else resultTy env options t scope

/-- The parts of a node are typed again. -/
def typesParts (typing : Bool) (t : Tree) (scope : Scope) : Bool :=
  match Rule.find? env t scope with
  | some .dynamicApply | some .dynamicSelect => true
  | _ => typing && !t.ty.isTyped

/-- The node selects `x` from a value that becomes dynamic. -/
def isExposed (typing : Bool) (t : Tree) (scope : Scope) : Bool :=
  match t.node with
  | .select part name =>
    !env.isDynamicSelect t && Name.decode name = shorthandName
      && env.table.typeSymbol
          (finalTy env options (typesParts env typing t scope) part (inner env t scope))
        = some env.lib.jsDynamic
  | _ => false

/-- The places of the selections that become shorthands, a parent before its parts. -/
def exposed (typing : Bool) (t : Tree) (scope : Scope) : List Span :=
  (if isExposed env options typing t scope then [t.span] else [])
    ++ (parts env t scope).attach.flatMap fun ⟨c, _⟩ =>
        exposed (typesParts env typing t scope) c (inner env t scope)
termination_by t.weight
decreasing_by exact weight_lt_of_mem_parts ‹_›

/-! ## Lemmas -/

variable {env} {options} {t : Tree} {scope : Scope}

theorem exposed_eq (typing : Bool) (t : Tree) (scope : Scope) :
    exposed env options typing t scope
      = (if isExposed env options typing t scope then [t.span] else [])
        ++ (parts env t scope).flatMap
            (exposed env options (typesParts env typing t scope) · (inner env t scope)) := by
  rw [exposed]
  simp

theorem typedTy_of_typed (h : resultTy env options t scope ≠ .noType) :
    typedTy env options t scope = resultTy env options t scope := by
  rw [typedTy, if_pos h]

theorem typedTy_of_untyped (h : resultTy env options t scope = .noType) :
    typedTy env options t scope
      = match Typing.resolve env (t.withChildren (t.children.map fun c =>
            { Tree.placeholder {} with ty := typedTy env options c (inner env t scope) })) with
        | .ok (_, ty) => ty
        | .error _ => .noType := by
  rw [typedTy, if_neg (not_not_intro h)]
  simp

theorem resultTy_of_kept (h : Kept env t scope) : resultTy env options t scope = t.ty := by
  unfold resultTy
  split
  next hfind => cases h _ hfind
  next hfind => cases h _ hfind
  next hfind => cases h _ hfind
  next => rfl

theorem typesParts_of_kept (h : Kept env t scope) (typing : Bool) :
    typesParts env typing t scope = (typing && !t.ty.isTyped) := by
  unfold typesParts
  split
  next hfind => cases h _ hfind
  next hfind => cases h _ hfind
  next => rfl

/-- Whether a place is typed again makes a difference only if it does so for the parts. -/
theorem exposed_congr (h : typesParts env true t scope = typesParts env false t scope) :
    exposed env options true t scope = exposed env options false t scope := by
  rw [exposed_eq, exposed_eq, h]
  unfold isExposed
  rw [h]

theorem exposed_of_typed (h : t.ty ≠ .noType) :
    exposed env options true t scope = exposed env options false t scope := by
  refine exposed_congr ?_
  unfold typesParts
  split <;> simp [h]

theorem isExposed_of_dynamicSelect (h : Rule.find? env t scope = some .dynamicSelect)
    (typing : Bool) : isExposed env options typing t scope = false := by
  have := Rule.find?_eq_dynamicSelect_iff.1 h
  unfold isExposed
  split
  next => simp [this]
  next => rfl

theorem isExposed_of_not_select (h : ∀ part name, t.node ≠ .select part name) (typing : Bool) :
    isExposed env options typing t scope = false := by
  unfold isExposed
  split
  next part name ht => exact absurd ht (h part name)
  next => rfl

end Interop.Pass
