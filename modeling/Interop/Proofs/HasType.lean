import Interop.Proofs.Ancestry
import Interop.Proofs.Assign
import Interop.Proofs.Lookups

/-!
# The typing relation

What it means for a tree to have a type, said without the algorithm.  A node that has a type keeps
it; of the others

    literal          the type of the constant
    x                the declared type of its symbol
    q.x              that of its symbol, or else of the only x in the class of q and its ancestors
    { stats; e }     the type of e, if the statements have types
    f(args)          the result type of f, if the arguments conform to its parameters

and nothing else has one.  Typing finds the type if there is one (`hasType_iff`), so a tree has at
most one type.
-/

namespace Interop

namespace Typing

/-! ## Algorithm -/

/-- The types that arguments for the parameters need: a repeated last parameter stands for any
number of arguments. -/
def Expands (params tys : List Ty) : Prop :=
  (∃ fixed elem n, params = fixed ++ [.repeated elem] ∧ tys = fixed ++ List.replicate n elem)
  ∨ ((∀ elem, params.getLast? ≠ some (.repeated elem)) ∧ tys = params)

/-- The tree has the type. -/
inductive HasType (env : Env) : Tree → Ty → Prop
  | typed {t : Tree} : t.ty ≠ .noType → HasType env t t.ty
  | literal {value : Constant} {span : Span} {symbol : SymbolRef} :
      HasType env { node := .literal value, span, symbol } (constantTy env value)
  | ident {name : String} {span : Span} {id : SymbolId} {s : Symbol} :
      env.table.get? (some id) = some s →
      HasType env { node := .ident name, span, symbol := some id } s.info
  | select {qualifier : Tree} {name : String} {span : Span} {id : SymbolId} {s : Symbol} {ty : Ty} :
      HasType env qualifier ty → env.table.get? (some id) = some s →
      HasType env { node := .select qualifier name, span, symbol := some id } s.info
  | member {qualifier : Tree} {name : String} {span : Span} {id : SymbolId} {s : Symbol} {ty : Ty} :
      HasType env qualifier ty → env.table.IsMember (env.table.typeSymbol ty) name id →
      (∀ id', env.table.IsMember (env.table.typeSymbol ty) name id' → id' = id) →
      env.table.get? (some id) = some s →
      HasType env { node := .select qualifier name, span } s.info
  | block {stats : List Tree} {tys : List Ty} {expr : Tree} {span : Span} {symbol : SymbolRef}
      {ty : Ty} :
      List.Forall₂ (HasType env) stats tys → HasType env expr ty →
      HasType env { node := .block stats expr, span, symbol } ty
  | apply {callee : Tree} {args : List Tree} {params tys needed : List Ty} {result : Ty}
      {span : Span} {symbol : SymbolRef} :
      HasType env callee (.method params result) → List.Forall₂ (HasType env) args tys →
      Expands params needed → List.Forall₂ (fun ty need => env.conforms ty need) tys needed →
      HasType env { node := .apply callee args, span, symbol } result

variable {env : Env} {t t' : Tree}

/-! ## Arguments -/

theorem argumentTys?_eq_some_iff {params tys : List Ty} {n : Nat} :
    argumentTys? params n = some tys ↔ Expands params tys ∧ tys.length = n := by
  unfold argumentTys? Expands
  split
  next elem hlast =>
    obtain ⟨fixed, rfl⟩ := List.getLast?_eq_some_iff.1 hlast
    simp only [List.dropLast_concat]
    constructor
    · intro h
      split at h
      next => cases h
      next hn =>
        cases h
        refine ⟨.inl ⟨fixed, elem, n - fixed.length, rfl, rfl⟩, ?_⟩
        rw [List.length_append, List.length_replicate]
        omega
    · rintro ⟨⟨fixed', elem', k, hparams, rfl⟩ | ⟨hnot, -⟩, rfl⟩
      · obtain ⟨rfl, helem⟩ := List.append_inj' hparams rfl
        cases helem
        rw [List.length_append, List.length_replicate, if_neg (by omega), Nat.add_sub_cancel_left]
      · exact absurd hlast (hnot elem)
  next hnot =>
    constructor
    · intro h
      split at h
      next hn =>
        cases h
        exact ⟨.inr ⟨hnot, rfl⟩, hn.symm⟩
      next => cases h
    · rintro ⟨⟨fixed, elem, k, rfl, -⟩ | ⟨-, rfl⟩, rfl⟩
      · exact absurd (List.getLast?_concat ..) (hnot elem)
      · rw [if_pos rfl]

/-- An application has the result type if its arguments conform one by one. -/
theorem applyTy_eq_ok_iff_expands {callee : Tree} {args : List Tree} {ty : Ty} :
    applyTy env callee args = .ok ty ↔ ∃ params needed, callee.ty = .method params ty
      ∧ Expands params needed
      ∧ List.Forall₂ (fun ty need => env.conforms ty need) (args.map (·.ty)) needed := by
  have hzip : ∀ needed : List Ty, needed.length = args.length →
      ((∀ p ∈ args.zip needed, env.conforms p.1.ty p.2)
        ↔ List.Forall₂ (fun ty need => env.conforms ty need) (args.map (·.ty)) needed) := by
    intro needed hlength
    rw [List.forall₂_map_left_iff, List.forall₂_iff_zip]
    exact ⟨fun h => ⟨hlength.symm, fun {a b} hab => h (a, b) hab⟩, fun h p hp => h.2 hp⟩
  rw [applyTy_eq_ok_iff]
  constructor
  · rintro ⟨params, needed, hcallee, hneeded, hargs⟩
    obtain ⟨hexpands, hlength⟩ := argumentTys?_eq_some_iff.1 hneeded
    exact ⟨params, needed, hcallee, hexpands, (hzip needed hlength).1 hargs⟩
  · rintro ⟨params, needed, hcallee, hexpands, hargs⟩
    have hlength : needed.length = args.length := by
      rw [← hargs.length_eq, List.length_map]
    exact ⟨params, needed, hcallee, argumentTys?_eq_some_iff.2 ⟨hexpands, hlength⟩,
      (hzip needed hlength).2 hargs⟩

/-! ## Nodes -/

theorem exists_of_forall₂_hasType {cs : List Tree} {tys : List Ty}
    (ih : ∀ c ∈ cs, ∀ ty, HasType env c ty → ∃ c', assign env c = .ok c' ∧ c'.ty = ty)
    (h : List.Forall₂ (HasType env) cs tys) :
    ∃ cs', List.Forall₂ (fun c c' => assign env c = .ok c') cs cs' ∧ cs'.map (·.ty) = tys := by
  induction h with
  | nil => exact ⟨[], .nil, rfl⟩
  | cons hc _ ihcs =>
    obtain ⟨c', hc', rfl⟩ := ih _ (.head _) _ hc
    obtain ⟨cs', hcs', rfl⟩ := ihcs fun c hc => ih c (.tail _ hc)
    exact ⟨c' :: cs', .cons hc' hcs', rfl⟩

section

variable (hfiled : env.table.Filed) (hnumbered : env.table.Numbered)

include hfiled hnumbered

theorem resolveMember_eq_ok_iff {owner : SymbolRef} {name : String} {id : SymbolId} :
    resolveMember env owner name = .ok id ↔ env.table.IsMember owner name id
      ∧ ∀ id', env.table.IsMember owner name id' → id' = id := by
  rw [← SymbolTable.membersNamed_eq_singleton_iff hfiled hnumbered]
  refine ⟨membersNamed_of_resolveMember, fun h => ?_⟩
  unfold resolveMember
  rw [h]

/-- What typing gives a tree is a type of it. -/
theorem hasType_of_assign_eq_ok (h : assign env t = .ok t') : HasType env t t'.ty := by
  refine assign_induction (motive := fun t t' => HasType env t t'.ty)
    (fun t hty => .typed hty) (fun t cs symbol ty hty _ hcs hr => ?_) h
  have htypes : ∀ {as bs : List Tree},
      List.Forall₂ (fun c c' => assign env c = .ok c' ∧ HasType env c c'.ty) as bs →
      List.Forall₂ (HasType env) as (bs.map (·.ty)) :=
    fun h => List.forall₂_map_right_iff.2 (h.imp fun _ _ hc => hc.2)
  obtain ⟨node, span, _, symbol₀⟩ := t
  subst hty
  cases node with
  | literal value =>
    cases hr
    exact .literal
  | ident name =>
    obtain ⟨id, s, rfl, hs, hr⟩ := resolve_ident_eq_ok_iff.1 hr
    cases hr
    exact .ident hs
  | select qualifier name =>
    obtain ⟨q, _, ⟨-, hqualifier⟩, hnil, rfl⟩ := List.forall₂_cons_left_iff.1 hcs
    cases hnil
    obtain ⟨id, s, rfl | ⟨rfl, hid⟩, hs, hr⟩ := resolve_select_eq_ok_iff.1 hr
    · cases hr
      exact .select hqualifier hs
    · cases hr
      obtain ⟨hmember, honly⟩ := (resolveMember_eq_ok_iff hfiled hnumbered).1 hid
      exact .member hqualifier hmember honly hs
  | block stats expr =>
    obtain ⟨ss, es, hss, hes, rfl⟩ := exists_of_forall₂_append hcs
    obtain ⟨e, _, ⟨-, hexpr⟩, hnil, rfl⟩ := List.forall₂_cons_left_iff.1 hes
    cases hnil
    cases hr
    simpa [Tree.withChildren, Node.withChildren] using HasType.block (htypes hss) hexpr
  | apply callee args =>
    obtain ⟨f, as, ⟨-, hcallee⟩, has, rfl⟩ := List.forall₂_cons_left_iff.1 hcs
    obtain ⟨result, hresult, hr⟩ := bind_eq_ok.1 hr
    cases hr
    obtain ⟨params, needed, hmethod, hexpands, hconforms⟩ := applyTy_eq_ok_iff_expands.1 hresult
    have hmethod : f.ty = .method params _ := hmethod
    rw [hmethod] at hcallee
    exact .apply hcallee (htypes has) hexpands hconforms
  | _ => cases hr

/-- A node that has a type is given it, if this holds of its children. -/
theorem exists_assign_of_children {ty : Ty}
    (ih : ∀ c ∈ t.children, ∀ ty, HasType env c ty → ∃ c', assign env c = .ok c' ∧ c'.ty = ty)
    (h : HasType env t ty) : ∃ t', assign env t = .ok t' ∧ t'.ty = ty := by
  cases h with
  | typed hty => exact ⟨t, (assign_eq_ok_iff_of_typed hty).2 rfl, rfl⟩
  | literal => exact ⟨_, (assign_eq_ok_iff_of_untyped rfl).2 ⟨[], _, _, .nil, rfl, rfl⟩, rfl⟩
  | @ident name span id s hs =>
    have hr : resolve env { node := .ident name, span, symbol := some id }
        = .ok (some id, s.info) := resolve_ident_eq_ok_iff.2 ⟨id, s, rfl, hs, rfl⟩
    exact ⟨_, (assign_eq_ok_iff_of_untyped rfl).2 ⟨[], _, _, .nil, hr, rfl⟩, rfl⟩
  | @select qualifier name span id s ty hq hs =>
    obtain ⟨q, hq', -⟩ := ih qualifier (.head _) ty hq
    have hr : resolve env { node := .select q name, span, symbol := some id }
        = .ok (some id, s.info) := resolve_select_eq_ok_iff.2 ⟨id, s, .inl rfl, hs, rfl⟩
    exact ⟨_, (assign_eq_ok_iff_of_untyped rfl).2 ⟨[q], _, _, .cons hq' .nil, hr, rfl⟩, rfl⟩
  | @member qualifier name span id s ty hq hmember honly hs =>
    obtain ⟨q, hq', rfl⟩ := ih qualifier (.head _) ty hq
    have hid := (resolveMember_eq_ok_iff hfiled hnumbered).2 ⟨hmember, honly⟩
    have hr : resolve env { node := .select q name, span } = .ok (some id, s.info) :=
      resolve_select_eq_ok_iff.2 ⟨id, s, .inr ⟨rfl, hid⟩, hs, rfl⟩
    exact ⟨_, (assign_eq_ok_iff_of_untyped rfl).2 ⟨[q], _, _, .cons hq' .nil, hr, rfl⟩, rfl⟩
  | @block stats tys expr span symbol ty hstats hexpr =>
    obtain ⟨ss, hss, -⟩ := exists_of_forall₂_hasType
      (fun c hc => ih c (List.mem_append_left _ hc)) hstats
    obtain ⟨e, he, rfl⟩ := ih expr (List.mem_append_right _ (.head _)) ty hexpr
    have hr : resolve env { node := .block ss e, span, symbol } = .ok (symbol, e.ty) := rfl
    refine ⟨{ node := .block ss e, span, ty := e.ty, symbol }, ?_, rfl⟩
    refine (assign_eq_ok_iff_of_untyped rfl).2 ⟨ss ++ [e], symbol, e.ty, ?_, ?_, ?_⟩
    · exact List.rel_append hss (.cons he .nil)
    · simpa [Tree.withChildren, Node.withChildren] using hr
    · simp [Tree.withChildren, Node.withChildren]
  | @apply callee args params tys needed result span symbol hcallee hargs hexpands hconforms =>
    obtain ⟨f, hf, hmethod⟩ := ih callee (.head _) _ hcallee
    obtain ⟨as, has, rfl⟩ := exists_of_forall₂_hasType (fun c hc => ih c (.tail _ hc)) hargs
    have hty := applyTy_eq_ok_iff_expands.2 ⟨params, needed, hmethod, hexpands, hconforms⟩
    exact ⟨_, assign_apply_eq_ok_iff.2 ⟨f, as, _, hf, has, hty, rfl⟩, rfl⟩

/-! ## Trees -/

theorem exists_assign_of_hasType {t : Tree} {ty : Ty} (h : HasType env t ty) :
    ∃ t', assign env t = .ok t' ∧ t'.ty = ty :=
  exists_assign_of_children hfiled hnumbered (fun _ _ _ hc => exists_assign_of_hasType hc) h
termination_by sizeOf t
decreasing_by exact Tree.sizeOf_lt_of_mem_children ‹_›

/-- **Typing finds the type of a tree**, if it has one. -/
theorem hasType_iff (t : Tree) (ty : Ty) :
    HasType env t ty ↔ ∃ t', assign env t = .ok t' ∧ t'.ty = ty := by
  refine ⟨exists_assign_of_hasType hfiled hnumbered, ?_⟩
  rintro ⟨t', h, rfl⟩
  exact hasType_of_assign_eq_ok hfiled hnumbered h

/-- A tree has at most one type. -/
theorem HasType.unique {ty ty' : Ty} (h : HasType env t ty) (h' : HasType env t ty') :
    ty = ty' := by
  obtain ⟨u, hu, rfl⟩ := (hasType_iff hfiled hnumbered t ty).1 h
  obtain ⟨u', hu', rfl⟩ := (hasType_iff hfiled hnumbered t ty').1 h'
  rw [hu] at hu'
  cases hu'
  rfl

end

/-! ## Top theorem -/

/-- **Re-typing decides the typing relation.**  A tree that names symbols of the table only is typed
for a place exactly if it has a type that conforms to that of the place, and what it is given is
that type; otherwise there is a type error. -/
theorem retype_iff_hasType (ds : List Declaration) {t : Tree} (ht : (Env.declaring ds).Closed t)
    (expected : Ty) :
    ((∃ t', retype (.declaring ds) t expected = .ok t')
        ↔ ∃ ty, HasType (.declaring ds) t ty ∧ (Env.declaring ds).conforms ty expected)
      ∧ (∀ t', retype (.declaring ds) t expected = .ok t' →
          ∀ ty, HasType (.declaring ds) t ty ↔ ty = t'.ty)
      ∧ ((¬ ∃ ty, HasType (.declaring ds) t ty ∧ (Env.declaring ds).conforms ty expected) →
          ∃ cause, retype (.declaring ds) t expected = .error (.illTyped cause)) := by
  have hfiled := Env.filed_declaring ds
  have hnumbered := Env.numbered_declaring ds
  have hiff : (∃ t', retype (.declaring ds) t expected = .ok t')
      ↔ ∃ ty, HasType (.declaring ds) t ty ∧ (Env.declaring ds).conforms ty expected := by
    simp only [retype_eq_ok_iff, hasType_iff hfiled hnumbered]
    constructor
    · rintro ⟨t', h, hconforms⟩
      exact ⟨t'.ty, ⟨t', h, rfl⟩, hconforms⟩
    · rintro ⟨_, ⟨t', h, rfl⟩, hconforms⟩
      exact ⟨t', h, hconforms⟩
  refine ⟨hiff, fun t' h ty => ?_, fun hnot => ?_⟩
  · have hassign := (retype_eq_ok_iff.1 h).1
    rw [hasType_iff hfiled hnumbered]
    constructor
    · rintro ⟨u, hu, rfl⟩
      rw [hassign] at hu
      cases hu
      rfl
    · rintro rfl
      exact ⟨t', hassign, rfl⟩
  · rw [← hiff] at hnot
    have havoids := avoids_retype ht expected
    cases hretype : retype (.declaring ds) t expected with
    | ok t' => exact absurd ⟨t', hretype⟩ hnot
    | error e =>
      cases e with
      | illTyped cause => exact ⟨cause, rfl⟩
      | missingSymbol => exact absurd hretype havoids.ne_error

/-- The call `d.applyDynamic("x")(1, true)`, with nothing typed but `d`. -/
def variadicCall : Tree :=
  let d : Tree := { node := .ident "d", ty := Library.classTy Library.fresh.1.jsDynamic }
  let call : Tree :=
    { node := .apply { node := .select d "applyDynamic" } [.literal (.str "x") {}] }
  { node := .apply call [.literal (.int 1) {}, .literal (.bool true) {}] }

/-- The arguments are taken one by one, and what is called is found by its name. -/
theorem retype_iff_hasType_variadicCall :
    (∀ ty, HasType (.declaring []) variadicCall ty
        ↔ ty = Library.classTy Library.fresh.1.jsDynamic)
      ∧ ∃ cause, retype (.declaring []) variadicCall .bool = .error (.illTyped cause) := by
  have hclosed : (Env.declaring []).Closed variadicCall := by
    unfold Env.Closed
    decide +kernel
  have hty : (retype (.declaring []) variadicCall .noType).toOption.map (·.ty)
      = some (Library.classTy Library.fresh.1.jsDynamic) := by
    decide +kernel
  have htyped : ∀ ty, HasType (.declaring []) variadicCall ty
      ↔ ty = Library.classTy Library.fresh.1.jsDynamic := by
    obtain ⟨t', ht', hty⟩ := Option.map_eq_some_iff.1 hty
    cases hretype : retype (.declaring []) variadicCall .noType with
    | error e =>
      rw [hretype] at ht'
      cases ht'
    | ok u =>
      rw [hretype] at ht'
      cases ht'
      rw [← hty]
      exact (retype_iff_hasType [] hclosed .noType).2.1 t' hretype
  refine ⟨htyped, (retype_iff_hasType [] hclosed .bool).2.2 ?_⟩
  rintro ⟨ty, h, hconforms⟩
  rw [(htyped ty).1 h] at hconforms
  exact absurd hconforms (by decide +kernel)

end Typing

end Interop
