import Interop.Proofs.Stages

/-!
# The trees that rules build

A dynamic shorthand becomes a call of a method of the interop library, and a type token becomes a
class literal.  Since these have known types, typing the new tree can fail in few ways:

    recv.x(args)  typed  ↔  recv and args typed,  js.Dynamic fits the place
    recv.x        typed  ↔  recv typed,           js.Dynamic fits the place
    classOf[T]    typed  ↔  host.Class fits the place
    Value(i, "v") typed  ←  the call typed without the name,  Enumeration.Value fits the place
-/

namespace Interop

/-! ## Conformance -/

namespace Env

variable {env : Env}

/-- Values of every type fit where anything does. -/
theorem conforms_anyClass (found : Ty) : env.conforms found (Library.classTy env.lib.anyClass) := by
  unfold conforms
  rw [show env.table.underlying (Library.classTy env.lib.anyClass)
    = Library.classTy env.lib.anyClass from rfl]
  unfold fits Library.classTy
  split <;> simp

theorem conforms_str : env.conforms .str .str := rfl

end Env

/-! ## Dynamic shorthands -/

/-- `receiver.method("x")` with its types, where `method` takes a name to a value of type `ty`. -/
def typedDynamicCall (receiver : Tree) (method : String) (symbol : SymbolId) (ty : Ty)
    (span : Span) : Tree :=
  let select : Tree :=
    { node := .select receiver method, span, ty := .method [.str] ty, symbol := some symbol }
  { node := .apply select [{ Tree.literal (.str shorthandName) span with ty := .str }], span, ty }

variable {env : Env} {t t' : Tree}

theorem assign_dynamicCall_eq_ok_iff {receiver : Tree} {method : String} {symbol : SymbolId}
    {ty : Ty} {span : Span}
    (hinfo : Typing.infoOf env (some symbol) = .ok (.method [.str] ty)) :
    Typing.assign env (dynamicCall receiver method symbol span) = .ok t'
      ↔ ∃ r, Typing.assign env receiver = .ok r
        ∧ t' = typedDynamicCall r method symbol ty span := by
  unfold dynamicCall
  rw [Typing.assign_apply_eq_ok_iff]
  constructor
  · rintro ⟨f, as, ty', hf, has, hty, rfl⟩
    obtain ⟨r, hr, rfl⟩ := (Typing.assign_select_eq_ok_iff hinfo).1 hf
    obtain ⟨a, _, ha, hnil, rfl⟩ := List.forall₂_cons_left_iff.1 has
    cases hnil
    rw [Typing.assign_literal] at ha
    cases ha
    obtain ⟨_, _, hmethod, -, -⟩ := Typing.applyTy_eq_ok_iff.1 hty
    cases hmethod
    exact ⟨r, hr, rfl⟩
  · rintro ⟨r, hr, rfl⟩
    refine ⟨_, _, ty, (Typing.assign_select_eq_ok_iff hinfo).2 ⟨r, hr, rfl⟩,
      .cons (Typing.assign_literal _ _) .nil, Typing.applyTy_eq_ok_iff.2 ?_, rfl⟩
    refine ⟨[.str], [.str], rfl, rfl, fun p hp => ?_⟩
    rw [List.mem_singleton.1 hp]
    exact Env.conforms_str

namespace Pass

/-- The place of a selection becomes that of a call. -/
theorem selectDynamic_eq_ok_iff (henv : env.Installed) {receiver : Tree} :
    selectDynamic env t receiver = .ok t' ↔ ∃ r, Typing.assign env receiver = .ok r
      ∧ env.conforms env.dynamicTy t.ty
      ∧ t' = typedDynamicCall r "selectDynamic" env.lib.selectDynamic env.dynamicTy t.span := by
  unfold selectDynamic
  rw [retyped_eq_ok_iff, assign_dynamicCall_eq_ok_iff henv.infoOf_selectDynamic]
  constructor
  · rintro ⟨⟨r, hr, rfl⟩, hty⟩
    exact ⟨r, hr, hty, rfl⟩
  · rintro ⟨r, hr, hty, rfl⟩
    exact ⟨⟨r, hr, rfl⟩, hty⟩

/-- The type of the method that takes any arguments to a dynamic value. -/
def applierTy (env : Env) : Ty :=
  .method [.repeated (Library.classTy env.lib.anyClass)] env.dynamicTy

theorem applyDynamic_eq_ok_iff (henv : env.Installed) {callee receiver : Tree} {args : List Tree} :
    applyDynamic env t callee receiver args = .ok t' ↔ ∃ r as,
      Typing.assign env receiver = .ok r
        ∧ List.Forall₂ (fun a b => Typing.assign env a = .ok b) args as
        ∧ env.conforms env.dynamicTy t.ty
        ∧ t' = { node := .apply (typedDynamicCall r "applyDynamic" env.lib.applyDynamic
                    (applierTy env) callee.span) as
                 span := t.span, ty := env.dynamicTy } := by
  unfold applyDynamic
  simp only
  rw [retyped_eq_ok_iff, Typing.assign_apply_eq_ok_iff]
  constructor
  · rintro ⟨⟨f, as, ty, hf, has, hty, rfl⟩, hconf⟩
    obtain ⟨r, hr, rfl⟩ := (assign_dynamicCall_eq_ok_iff henv.infoOf_applyDynamic).1 hf
    obtain ⟨_, _, hmethod, -, -⟩ := Typing.applyTy_eq_ok_iff.1 hty
    cases hmethod
    exact ⟨r, as, hr, has, hconf, rfl⟩
  · rintro ⟨r, as, hr, has, hconf, rfl⟩
    refine ⟨⟨_, as, _, (assign_dynamicCall_eq_ok_iff henv.infoOf_applyDynamic).2 ⟨r, hr, rfl⟩, has,
      Typing.applyTy_eq_ok_iff.2 ?_, rfl⟩, hconf⟩
    -- each argument is for the repeated parameter, which takes anything
    refine ⟨_, List.replicate as.length (Library.classTy env.lib.anyClass), rfl, rfl,
      fun p hp => ?_⟩
    rw [List.eq_of_mem_replicate (List.of_mem_zip hp).2]
    exact Env.conforms_anyClass _

/-! ## Type tokens -/

/-- A class literal with its type. -/
def classLiteral (env : Env) (t arg : Tree) : Tree :=
  { node := .literal (.type (env.table.underlying arg.ty)), span := t.span, ty := env.tokenTy }

theorem isTypeToken_of_tokenProblem? {options : Options} {callee arg : Tree} {d : Diagnostic}
    (h : tokenProblem? env options callee arg = some d) : d.code.isTypeToken := by
  unfold tokenProblem? at h
  split at h
  next =>
    cases h
    rfl
  next =>
    split at h
    next =>
      cases h
      rfl
    next => cases h

theorem isTypeToken_of_mem_tokenReport {d : Diagnostic} (hd : d ∈ tokenReport env options t) :
    d.code.isTypeToken := by
  unfold tokenReport at hd
  split at hd
  next => exact isTypeToken_of_tokenProblem? (Option.mem_toList.1 hd)
  next => cases hd

theorem tokenResult_eq_ok_iff {options : Options} {callee arg : Tree}
    (ht : t.node = .typeApply callee [arg]) :
    tokenResult env options t = .ok t' ↔
      (tokenReport env options t ≠ [] ∧ t' = .placeholder t.span)
      ∨ (tokenReport env options t = [] ∧ env.conforms env.tokenTy t.ty
        ∧ t' = classLiteral env t arg) := by
  unfold tokenResult tokenReport
  rw [ht]
  simp only
  cases tokenProblem? env options callee arg with
  | some d =>
    constructor
    · intro h
      cases h
      exact .inl ⟨List.cons_ne_nil _ _, rfl⟩
    · rintro (⟨-, rfl⟩ | ⟨h, -⟩)
      · rfl
      · cases h
  | none =>
    simp only [retyped_eq_ok_iff, Typing.assign_literal]
    constructor
    · rintro ⟨h, hty⟩
      cases h
      exact .inr ⟨rfl, hty, rfl⟩
    · rintro (⟨h, -⟩ | ⟨-, hty, rfl⟩)
      · exact absurd rfl h
      · exact ⟨rfl, hty⟩

/-! ## Named values -/

theorem isTypable_of_isReference {t : Tree} (ht : t.node.isReference) : t.node.isTypable := by
  cases hnode : t.node <;> simp [hnode, Node.isReference, Node.isTypable] at ht ⊢

/-- What a factory that takes no name takes. -/
def factoryParams (env : Env) (factory : SymbolRef) : List Ty :=
  if factory = some env.lib.valueInt then [.int] else []

theorem infoOf_namedFactory (henv : env.Installed) (factory : SymbolRef) :
    Typing.infoOf env (some (env.namedFactory factory))
      = .ok (.method (factoryParams env factory ++ [.str]) env.enumTy) := by
  unfold Env.namedFactory factoryParams
  split
  next => exact henv.infoOf_valueIntName
  next => exact henv.infoOf_valueName

/-- A factory call with its name and its types. -/
def typedNameCall (env : Env) (callee : Tree) (args : List Tree) (span : Span) (name : String) :
    Tree :=
  let factory : Tree :=
    { callee with
      ty := .method (factoryParams env callee.symbol ++ [.str]) env.enumTy
      symbol := some (env.namedFactory callee.symbol) }
  { node := .apply factory (args ++ [{ Tree.literal (.str name) span with ty := .str }])
    span, ty := env.enumTy }

/-- With its name a call is no call without one. -/
theorem isUnnamedCall_typedNameCall (henv : env.Installed) {callee : Tree} (args : List Tree)
    (span : Span) (name : String)
    (hcallee : callee.node.isReference) :
    env.isUnnamedCall (typedNameCall env callee args span name) = false := by
  have hsymbol : (typedNameCall env callee args span name).calleeSymbol
      = some (env.namedFactory callee.symbol) := by
    obtain ⟨node, _, _, _⟩ := callee
    rcases Node.isReference_iff.1 hcallee with ⟨_, _, rfl⟩ | ⟨_, rfl⟩
    all_goals rfl
  show env.isUnnamedFactory (typedNameCall env callee args span name).calleeSymbol = false
  rw [hsymbol]
  unfold Env.isUnnamedFactory Env.namedFactory
  rw [henv.lib_eq]
  split <;> decide

theorem isNullNamedCall_typedNameCall (env : Env) (callee : Tree) (args : List Tree) (span : Span)
    (name : String) : env.isNullNamedCall (typedNameCall env callee args span name) = false := by
  simp [Env.isNullNamedCall, typedNameCall, Tree.isNullLiteral, Tree.literal, Constant.isNull]

/-- The definition is a factory call with the arguments that the factory takes, selected from a
value that has a type, and an enumeration value fits its place. -/
def isNameable (env : Env) (t : Tree) : Bool :=
  match t.node with
  | .valDef rhs =>
    match rhs.node with
    | .apply callee args =>
      args.length = (factoryParams env callee.symbol).length
        && args.all (fun arg => env.conforms arg.ty .int)
        && callee.children.all (·.ty.isTyped)
        && env.conforms env.enumTy rhs.ty
    | _ => false
  | _ => false

/-- Typing goes into what the factory is selected from. -/
theorem assign_factory_eq_ok_iff (henv : env.Installed) {callee f : Tree}
    (hcallee : callee.node.isReference) :
    Typing.assign env
        { callee with ty := .noType, symbol := some (env.namedFactory callee.symbol) } = .ok f
      ↔ ∃ qs, List.Forall₂ (fun q q' => Typing.assign env q = .ok q') callee.children qs
        ∧ f = { callee.withChildren qs with
            ty := .method (factoryParams env callee.symbol ++ [.str]) env.enumTy
            symbol := some (env.namedFactory callee.symbol) } := by
  have hinfo := infoOf_namedFactory henv callee.symbol
  obtain ⟨node, span, ty, symbol⟩ := callee
  rcases Node.isReference_iff.1 hcallee with ⟨receiver, name, rfl⟩ | ⟨name, rfl⟩
  · refine (Typing.assign_select_eq_ok_iff hinfo).trans ⟨?_, ?_⟩
    · rintro ⟨q, hq, rfl⟩
      exact ⟨[q], .cons hq .nil, rfl⟩
    · rintro ⟨_, hqs, rfl⟩
      obtain ⟨q, _, hq, hnil, rfl⟩ := List.forall₂_cons_left_iff.1 hqs
      cases hnil
      exact ⟨q, hq, rfl⟩
  · have hresolve : Typing.resolve env
        { node := .ident name, span, symbol := some (env.namedFactory symbol) }
          = .ok (some (env.namedFactory symbol),
              .method (factoryParams env symbol ++ [.str]) env.enumTy) := by
      show (do return (some _, ← Typing.infoOf env (some _))) = _
      rw [hinfo]
      rfl
    refine (Typing.assign_eq_ok_iff_of_untyped rfl).trans ⟨?_, ?_⟩
    · rintro ⟨_, _, _, hcs, hr, rfl⟩
      cases hcs
      cases hr.symm.trans hresolve
      exact ⟨[], .nil, rfl⟩
    · rintro ⟨_, hqs, rfl⟩
      cases hqs
      exact ⟨[], _, _, .nil, hresolve, rfl⟩

/-- The only parameter before the name is a number. -/
theorem conforms_of_mem_zip {args : List Tree} {factory : SymbolRef}
    (hargs : ∀ a ∈ args, env.conforms a.ty .int) {p : Tree × Ty}
    (hp : p ∈ args.zip (factoryParams env factory)) : env.conforms p.1.ty p.2 := by
  obtain ⟨harg, hparam⟩ := List.of_mem_zip hp
  have hint : p.2 = .int := by
    unfold factoryParams at hparam
    split at hparam
    next => exact List.mem_singleton.1 hparam
    next => cases hparam
  rw [hint]
  exact hargs p.1 harg

/-- A call with its name is typed if the call without it takes its arguments. -/
theorem assign_nameCall_eq_ok (henv : env.Installed) {callee : Tree} {args : List Tree}
    (hcallee : callee.node.isReference) (htyped : ∀ c ∈ callee.children, c.ty ≠ .noType)
    (hlength : args.length = (factoryParams env callee.symbol).length)
    (hargs : ∀ a ∈ args, env.conforms a.ty .int) (span : Span) (name : String) :
    Typing.assign env (env.nameCall callee args span name)
      = .ok (typedNameCall env callee args span name) := by
  have hfactory : ∀ c ∈ callee.children, Typing.assign env c = .ok c := fun c hc =>
    (Typing.assign_eq_ok_iff_of_typed (htyped c hc)).2 rfl
  have hassign : ∀ a ∈ args, Typing.assign env a = .ok a := by
    intro a ha
    refine (Typing.assign_eq_ok_iff_of_typed fun hty => ?_).2 rfl
    have := hargs a ha
    rw [hty] at this
    cases this
  unfold Env.nameCall
  refine Typing.assign_apply_eq_ok_iff.2 ⟨_, _, _,
    (assign_factory_eq_ok_iff henv hcallee).2
      ⟨callee.children, List.forall₂_same.2 hfactory, by rw [Tree.withChildren_children]⟩,
    List.rel_append (List.forall₂_same.2 hassign) (.cons (Typing.assign_literal _ _) .nil),
    Typing.applyTy_eq_ok_iff.2 ⟨_, factoryParams env callee.symbol ++ [.str], rfl, ?_, ?_⟩, rfl⟩
  · simp [Typing.argumentTys?, hlength]
  · rw [List.zip_append hlength]
    intro p hp
    rcases List.mem_append.1 hp with hp | hp
    · exact conforms_of_mem_zip hargs hp
    · rw [List.mem_singleton.1 hp]
      exact Env.conforms_str

/-- A value whose definition can be named gets its name. -/
theorem nameValueDef_eq_ok (henv : env.Installed) {rhs callee : Tree} {args : List Tree}
    (ht : t.node = .valDef rhs) (hrhs : rhs.node = .apply callee args)
    (hcallee : callee.node.isReference) (h : isNameable env t) :
    nameValueDef env t = .ok { t with
      node := .valDef (typedNameCall env callee args rhs.span (env.valueName t.symbol)) } := by
  simp only [isNameable, ht, hrhs, Bool.and_eq_true, decide_eq_true_eq, List.all_eq_true,
    Ty.isTyped_iff] at h
  obtain ⟨⟨⟨hlength, hargs⟩, htyped⟩, hplace⟩ := h
  have hcall : retyped env "enumeration value"
      (env.nameCall callee args rhs.span (env.valueName t.symbol)) rhs.ty
        = .ok (typedNameCall env callee args rhs.span (env.valueName t.symbol)) :=
    retyped_eq_ok_iff.2 ⟨assign_nameCall_eq_ok henv hcallee htyped hlength hargs _ _, hplace⟩
  unfold nameValueDef
  simp only [ht, hrhs]
  rcases Node.isReference_iff.1 hcallee with ⟨receiver, name, hnode⟩ | ⟨name, hnode⟩
  all_goals
    simp only [hnode]
    rw [hcall]
    rfl

end Pass

end Interop
