import Mathlib.Data.List.Forall2
import Interop.Proofs.Children
import Interop.Proofs.Installed
import Interop.Pass.State

/-!
# What typing makes of a tree

Typing leaves a tree that has a type alone, and gives an untyped node a type and a symbol after its
children:

    assign t = ok t'  ↔  each child typed,  resolve ok,  t' = t with these        (untyped t)

So `assign` changes a tree only in a top region of untyped nodes, all of which are literals,
selections, identifiers, applications or blocks (`isTypable_of_resolve_eq_ok`).
-/

namespace Interop

/-! ## Lists -/

theorem mapM_eq_ok_iff {α β ε : Type} {f : α → Except ε β} {as : List α} {bs : List β} :
    as.mapM f = .ok bs ↔ List.Forall₂ (fun a b => f a = .ok b) as bs := by
  induction as generalizing bs with
  | nil =>
    rw [List.mapM_nil, List.forall₂_nil_left_iff]
    constructor
    · rintro ⟨⟩
      rfl
    · rintro rfl
      rfl
  | cons a as ih =>
    rw [List.mapM_cons, List.forall₂_cons_left_iff, Typing.bind_eq_ok]
    constructor
    · rintro ⟨b, hb, h⟩
      obtain ⟨bs', hbs, h⟩ := Typing.bind_eq_ok.1 h
      cases h
      exact ⟨b, bs', hb, ih.1 hbs, rfl⟩
    · rintro ⟨b, bs', hb, hbs, rfl⟩
      exact ⟨b, hb, Typing.bind_eq_ok.2 ⟨bs', ih.2 hbs, rfl⟩⟩

/-- Lists whose elements correspond, each adding the same, come to the same. -/
theorem flatMap_congr_of_forall₂ {α β γ : Type} {R : α → β → Prop} {f : α → List γ}
    {g : β → List γ} {as : List α} {bs : List β} (h : List.Forall₂ R as bs)
    (hfg : ∀ a ∈ as, ∀ b, R a b → f a = g b) : as.flatMap f = bs.flatMap g := by
  induction h with
  | nil => rfl
  | cons hab _ ih =>
    rw [List.flatMap_cons, List.flatMap_cons, hfg _ (.head _) _ hab,
      ih fun a ha => hfg a (.tail _ ha)]

/-- If `f` gives something only where `g` has `k`, which is in one place, a list comes to what `f`
gives there. -/
theorem flatMap_eq_of_nodup {α β γ : Type} {f : α → List γ} {g : α → List β} {as : List α} {a : α}
    {k : β} (hnodup : (as.flatMap g).Nodup) (ha : a ∈ as) (hk : k ∈ g a)
    (hf : ∀ b ∈ as, f b ≠ [] → k ∈ g b) : as.flatMap f = f a := by
  induction as with
  | nil => cases ha
  | cons b as ih =>
    rw [List.flatMap_cons, List.nodup_append] at hnodup
    obtain ⟨-, hrest, hapart⟩ := hnodup
    rw [List.flatMap_cons]
    rcases List.mem_cons.1 ha with rfl | ha
    · have hnone : as.flatMap f = [] := by
        rw [List.flatMap_eq_nil_iff]
        intro b hb
        by_contra hne
        exact hapart k hk k (List.mem_flatMap.2 ⟨b, hb, hf b (.tail _ hb) hne⟩) rfl
      rw [hnone, List.append_nil]
    · have hnone : f b = [] := by
        by_contra hne
        exact hapart k (hf b (.head _) hne) k (List.mem_flatMap.2 ⟨a, ha, hk⟩) rfl
      rw [hnone, List.nil_append, ih hrest ha fun b hb => hf b (.tail _ hb)]

theorem forall₂_trans {α β γ : Type} {R : α → β → Prop} {S : β → γ → Prop} {T : α → γ → Prop}
    {as : List α} {bs : List β} {cs : List γ} (h : ∀ a b c, R a b → S b c → T a c)
    (has : List.Forall₂ R as bs) (hbs : List.Forall₂ S bs cs) : List.Forall₂ T as cs := by
  induction has generalizing cs with
  | nil =>
    cases hbs
    exact .nil
  | cons hab _ ih =>
    cases hbs with
    | cons hbc hbs => exact .cons (h _ _ _ hab hbc) (ih hbs)

/-- What is paired with two lists, one after the other, are two lists. -/
theorem exists_of_forall₂_append {α β : Type} {R : α → β → Prop} {as bs : List α} {cs : List β}
    (h : List.Forall₂ R (as ++ bs) cs) :
    ∃ as' bs', List.Forall₂ R as as' ∧ List.Forall₂ R bs bs' ∧ cs = as' ++ bs' := by
  induction as generalizing cs with
  | nil => exact ⟨[], cs, .nil, h, rfl⟩
  | cons a as ih =>
    obtain ⟨c, cs', hc, hcs, rfl⟩ := List.forall₂_cons_left_iff.1 h
    obtain ⟨as', bs', has, hbs, rfl⟩ := ih hcs
    exact ⟨c :: as', bs', .cons hc has, hbs, rfl⟩

/-- If what the images of elements are paired with is the image of what the elements are paired
with, so it is for lists. -/
theorem exists_of_forall₂_map {α β γ δ : Type} {R : β → δ → Prop} {S : α → γ → Prop} {f : α → β}
    {g : γ → δ} {as : List α} {ds : List δ}
    (has : ∀ a ∈ as, ∀ d, R (f a) d → ∃ c, S a c ∧ d = g c)
    (h : List.Forall₂ R (as.map f) ds) : ∃ cs, List.Forall₂ S as cs ∧ ds = cs.map g := by
  induction as generalizing ds with
  | nil =>
    cases h
    exact ⟨[], .nil, rfl⟩
  | cons a as ih =>
    rw [List.map_cons] at h
    obtain ⟨d, ds', hd, hds, rfl⟩ := List.forall₂_cons_left_iff.1 h
    obtain ⟨c, hc, rfl⟩ := has a (.head _) d hd
    obtain ⟨cs, hcs, rfl⟩ := ih (fun a ha => has a (.tail _ ha)) hds
    exact ⟨c :: cs, .cons hc hcs, rfl⟩

theorem map_eq_of_forall₂ {α β γ : Type} {f : α → γ} {g : β → γ} {as : List α} {bs : List β}
    (h : List.Forall₂ (fun a b => g b = f a) as bs) : bs.map g = as.map f := by
  induction h with
  | nil => rfl
  | cons hab _ ih => rw [List.map_cons, List.map_cons, hab, ih]

theorem exists_of_forall₂_of_mem {α β : Type} {R : α → β → Prop} {as : List α} {bs : List β}
    (h : List.Forall₂ R as bs) {a : α} (ha : a ∈ as) : ∃ b ∈ bs, R a b := by
  induction h with
  | nil => cases ha
  | cons hab _ ih =>
    rcases List.mem_cons.1 ha with rfl | ha
    · exact ⟨_, .head _, hab⟩
    · obtain ⟨b, hb, hab⟩ := ih ha
      exact ⟨b, .tail _ hb, hab⟩

/-- What is known of the elements on the left in pairs is known of all of them. -/
theorem forall_of_forall₂_left {α β : Type} {p : α → Prop} {as : List α} {bs : List β}
    (h : List.Forall₂ (fun a _ => p a) as bs) : ∀ a ∈ as, p a := by
  induction h with
  | nil => simp
  | cons hab _ ih => exact List.forall_mem_cons.2 ⟨hab, ih⟩

theorem forall_of_forall₂_right {α β : Type} {p : β → Prop} {as : List α} {bs : List β}
    (h : List.Forall₂ (fun _ b => p b) as bs) : ∀ b ∈ bs, p b :=
  forall_of_forall₂_left h.flip

/-! ## Shapes -/

/-- The node is of a kind that typing handles. -/
def Node.isTypable {α : Type} : Node α → Bool
  | literal _ | select _ _ | ident _ | apply _ _ | block _ _ => true
  | _ => false

@[simp] theorem Node.isTypable_withChildren {α β : Type} [Inhabited β] (n : Node α) (bs : List β) :
    (n.withChildren bs).isTypable = n.isTypable := by
  cases n <;> rfl

namespace Typing

variable {env : Env} {t t' : Tree}

theorem isTypable_of_resolve_eq_ok {r : SymbolRef × Ty} (h : resolve env t = .ok r) :
    t.node.isTypable := by
  unfold resolve at h
  split at h
  next ht => simp [ht, Node.isTypable]
  next ht => simp [ht, Node.isTypable]
  next ht => simp [ht, Node.isTypable]
  next ht => simp [ht, Node.isTypable]
  next ht => simp [ht, Node.isTypable]
  next => cases h

theorem assign_eq_ok_iff_of_typed (ht : t.ty ≠ .noType) : assign env t = .ok t' ↔ t' = t := by
  rw [assign_of_typed env (Ty.isTyped_iff.2 ht), Except.ok.injEq, eq_comm]

theorem eq_of_forall₂_assign {cs cs' : List Tree} (hcs : ∀ c ∈ cs, c.ty ≠ .noType)
    (h : List.Forall₂ (fun c c' => assign env c = .ok c') cs cs') : cs' = cs := by
  have hsame := (List.forall₂_and_left _ _).2 ⟨hcs, h⟩
  rw [← List.forall₂_eq_eq_eq]
  exact hsame.flip.imp fun _ _ h => (assign_eq_ok_iff_of_typed h.1).1 h.2

theorem assign_eq_ok_iff_of_untyped (ht : t.ty = .noType) :
    assign env t = .ok t' ↔ ∃ cs symbol ty,
      List.Forall₂ (fun c c' => assign env c = .ok c') t.children cs
        ∧ resolve env (t.withChildren cs) = .ok (symbol, ty)
        ∧ t' = { t.withChildren cs with symbol, ty } := by
  rw [assign_of_untyped env (by simp [ht]), Node.mapM_eq_withChildren]
  simp only [bind_assoc, pure_bind]
  rw [bind_eq_ok]
  simp only [mapM_eq_ok_iff]
  constructor
  · rintro ⟨cs, hcs, h⟩
    obtain ⟨⟨symbol, ty⟩, hr, h⟩ := bind_eq_ok.1 h
    cases h
    exact ⟨cs, symbol, ty, hcs, hr, rfl⟩
  · rintro ⟨cs, symbol, ty, hcs, hr, rfl⟩
    exact ⟨cs, hcs, bind_eq_ok.2 ⟨(symbol, ty), hr, rfl⟩⟩

/-- What holds of typed trees, and of a node put over typed children if it holds of these, holds of
all that typing makes. -/
theorem assign_induction {motive : Tree → Tree → Prop} (typed : ∀ t, t.ty ≠ .noType → motive t t)
    (untyped : ∀ t cs symbol ty, t.ty = .noType →
      assign env t = .ok { t.withChildren cs with symbol, ty } →
      List.Forall₂ (fun c c' => assign env c = .ok c' ∧ motive c c') t.children cs →
      resolve env (t.withChildren cs) = .ok (symbol, ty) →
      motive t { t.withChildren cs with symbol, ty })
    {t t' : Tree} (h : assign env t = .ok t') : motive t t' := by
  by_cases hty : t.ty = .noType
  · obtain ⟨cs, symbol, ty, hcs, hr, rfl⟩ := (assign_eq_ok_iff_of_untyped hty).1 h
    refine untyped t cs symbol ty hty h ?_ hr
    have hmem := (List.forall₂_and_left _ _).2 ⟨fun c (hc : c ∈ t.children) => hc, hcs⟩
    exact hmem.imp fun c c' hc => ⟨hc.2, assign_induction typed untyped hc.2⟩
  · rw [(assign_eq_ok_iff_of_typed hty).1 h]
    exact typed t hty
termination_by sizeOf t
decreasing_by exact Tree.sizeOf_lt_of_mem_children hc.1

theorem isTypable_of_assign_eq_ok (h : assign env t = .ok t') (ht : t.ty = .noType) :
    t.node.isTypable := by
  obtain ⟨cs, _, _, -, hr, -⟩ := (assign_eq_ok_iff_of_untyped ht).1 h
  rw [← Node.isTypable_withChildren t.node cs]
  exact isTypable_of_resolve_eq_ok hr

theorem checkConforms_eq_ok_iff {found expected : Ty} :
    checkConforms env found expected = .ok () ↔ env.conforms found expected := by
  unfold checkConforms
  split
  next h => simp [h]
  next h => simp [h]

theorem forM_checkConforms_eq_ok_iff {ps : List (Tree × Ty)} :
    ps.forM (fun p => checkConforms env p.1.ty p.2) = .ok ()
      ↔ ∀ p ∈ ps, env.conforms p.1.ty p.2 := by
  induction ps with
  | nil => simp [pure, Except.pure]
  | cons p ps ih =>
    show (checkConforms env p.1.ty p.2 >>= fun _ => ps.forM _) = .ok () ↔ _
    rw [bind_eq_ok, List.forall_mem_cons, ← ih, ← checkConforms_eq_ok_iff]
    constructor
    · rintro ⟨_, hp, hps⟩
      exact ⟨hp, hps⟩
    · rintro ⟨hp, hps⟩
      exact ⟨(), hp, hps⟩

/-! ## Typing a node of each shape -/

theorem assign_literal (value : Constant) (span : Span) :
    assign env (.literal value span)
      = .ok { Tree.literal value span with ty := constantTy env value } := by
  rw [assign_eq_ok_iff_of_untyped rfl]
  exact ⟨[], none, _, .nil, rfl, rfl⟩

theorem assign_select_eq_ok_iff {qualifier : Tree} {name : String} {span : Span} {symbol : SymbolId}
    {ty : Ty} (hinfo : infoOf env (some symbol) = .ok ty) :
    assign env { node := .select qualifier name, span, symbol := some symbol } = .ok t'
      ↔ ∃ q, assign env qualifier = .ok q
        ∧ t' = { node := .select q name, span, ty, symbol := some symbol } := by
  have hresolve : ∀ q, resolve env { node := .select q name, span, symbol := some symbol }
      = .ok (some symbol, ty) := by
    intro q
    show (do return (some symbol, ← infoOf env (some symbol))) = _
    rw [hinfo]
    rfl
  rw [assign_eq_ok_iff_of_untyped rfl]
  constructor
  · rintro ⟨cs, symbol', ty', hcs, hr, rfl⟩
    obtain ⟨q, _, hq, hnil, rfl⟩ := List.forall₂_cons_left_iff.1 hcs
    cases hnil
    obtain ⟨rfl, rfl⟩ : some symbol = symbol' ∧ ty = ty' := by
      simpa using (hresolve q).symm.trans hr
    exact ⟨q, hq, rfl⟩
  · rintro ⟨q, hq, rfl⟩
    exact ⟨[q], some symbol, ty, .cons hq .nil, hresolve q, rfl⟩

/-- A reference has the declared type of its symbol. -/
theorem reference_eq_ok_iff {id : SymbolId} {r : SymbolRef × Ty} :
    (do return (some id, ← infoOf env (some id)) : Except Failure (SymbolRef × Ty)) = .ok r
      ↔ ∃ s, env.table.get? (some id) = some s ∧ r = (some id, s.info) := by
  unfold infoOf
  cases env.table.get? (some id) with
  | none =>
    constructor
    · rintro ⟨⟩
    · rintro ⟨_, ⟨⟩, -⟩
  | some s =>
    constructor
    · rintro ⟨⟩
      exact ⟨s, rfl, rfl⟩
    · rintro ⟨_, ⟨⟩, rfl⟩
      rfl

theorem resolve_ident_eq_ok_iff {name : String} {span : Span} {ty : Ty} {symbol : SymbolRef}
    {r : SymbolRef × Ty} :
    resolve env { node := .ident name, span, ty, symbol } = .ok r
      ↔ ∃ id s, symbol = some id ∧ env.table.get? (some id) = some s ∧ r = (some id, s.info) := by
  cases symbol with
  | none =>
    constructor
    · rintro ⟨⟩
    · rintro ⟨_, _, ⟨⟩, -⟩
  | some id =>
    refine reference_eq_ok_iff.trans ?_
    constructor
    · rintro ⟨s, hs, hr⟩
      exact ⟨id, s, rfl, hs, hr⟩
    · rintro ⟨_, s, hid, hs, hr⟩
      cases hid
      exact ⟨s, hs, hr⟩

/-- A selection has the symbol that it had, or else the only one of its name. -/
theorem resolve_select_eq_ok_iff {qualifier : Tree} {name : String} {span : Span} {ty : Ty}
    {symbol : SymbolRef} {r : SymbolRef × Ty} :
    resolve env { node := .select qualifier name, span, ty, symbol } = .ok r
      ↔ ∃ id s, (symbol = some id ∨ symbol = none
            ∧ resolveMember env (env.table.typeSymbol qualifier.ty) name = .ok id)
          ∧ env.table.get? (some id) = some s ∧ r = (some id, s.info) := by
  cases symbol with
  | none =>
    show (do
      let id ← resolveMember env (env.table.typeSymbol qualifier.ty) name
      return (some id, ← infoOf env (some id))) = _ ↔ _
    rw [bind_eq_ok]
    constructor
    · rintro ⟨id, hid, h⟩
      obtain ⟨s, hs, hr⟩ := reference_eq_ok_iff.1 h
      exact ⟨id, s, .inr ⟨rfl, hid⟩, hs, hr⟩
    · rintro ⟨id, s, h | ⟨-, hid⟩, hs, hr⟩
      · cases h
      · exact ⟨id, hid, reference_eq_ok_iff.2 ⟨s, hs, hr⟩⟩
  | some id =>
    refine reference_eq_ok_iff.trans ?_
    constructor
    · rintro ⟨s, hs, hr⟩
      exact ⟨id, s, .inl rfl, hs, hr⟩
    · rintro ⟨_, s, h | ⟨h, -⟩, hs, hr⟩
      · cases h
        exact ⟨s, hs, hr⟩
      · cases h

/-- A node keeps its symbol, unless it is a selection that had none. -/
theorem symbol_of_resolve_eq_ok {symbol : SymbolRef} {ty : Ty}
    (h : resolve env t = .ok (symbol, ty)) :
    symbol = t.symbol ∨ t.symbol = none ∧ ∃ qualifier name id,
      t.node = .select qualifier name ∧ symbol = some id
        ∧ resolveMember env (env.table.typeSymbol qualifier.ty) name = .ok id := by
  obtain ⟨node, span, ty₀, symbol₀⟩ := t
  cases node with
  | literal value =>
    cases h
    exact .inl rfl
  | ident name =>
    obtain ⟨id, s, rfl, -, h⟩ := resolve_ident_eq_ok_iff.1 h
    cases h
    exact .inl rfl
  | select qualifier name =>
    obtain ⟨id, s, rfl | ⟨rfl, hid⟩, -, h⟩ := resolve_select_eq_ok_iff.1 h
    · cases h
      exact .inl rfl
    · cases h
      exact .inr ⟨rfl, qualifier, name, id, rfl, rfl, hid⟩
  | block stats expr =>
    cases h
    exact .inl rfl
  | apply callee args =>
    obtain ⟨_, -, h⟩ := bind_eq_ok.1 h
    cases h
    exact .inl rfl
  | _ => cases h

theorem applyTy_eq_ok_iff {callee : Tree} {args : List Tree} {ty : Ty} :
    applyTy env callee args = .ok ty ↔ ∃ params tys, callee.ty = .method params ty
      ∧ argumentTys? params args.length = some tys
      ∧ ∀ p ∈ args.zip tys, env.conforms p.1.ty p.2 := by
  unfold applyTy
  split
  next params result hcallee =>
    rw [hcallee]
    split
    next hnone =>
      constructor
      · rintro ⟨⟩
      · rintro ⟨params', tys, ⟨rfl, rfl⟩, htys, -⟩
        rw [hnone] at htys
        cases htys
    next tys htys =>
      rw [bind_eq_ok]
      constructor
      · rintro ⟨⟨⟩, hargs, h⟩
        cases h
        exact ⟨params, tys, rfl, htys, forM_checkConforms_eq_ok_iff.1 hargs⟩
      · rintro ⟨params', tys', ⟨rfl, rfl⟩, htys', hargs⟩
        obtain rfl : tys = tys' := by simpa using htys.symm.trans htys'
        exact ⟨(), forM_checkConforms_eq_ok_iff.2 hargs, rfl⟩
  next hcallee =>
    constructor
    · rintro ⟨⟩
    · rintro ⟨params, tys, h, -⟩
      exact absurd h (hcallee params ty)

theorem assign_apply_eq_ok_iff {callee : Tree} {args : List Tree} {span : Span}
    {symbol : SymbolRef} :
    assign env { node := .apply callee args, span, symbol } = .ok t'
      ↔ ∃ f as ty, assign env callee = .ok f
        ∧ List.Forall₂ (fun a b => assign env a = .ok b) args as
        ∧ applyTy env f as = .ok ty ∧ t' = { node := .apply f as, span, ty, symbol } := by
  have hresolve : ∀ f as, resolve env { node := .apply f as, span, symbol }
      = (applyTy env f as).map (symbol, ·) := by
    intro f as
    show (do return (symbol, ← applyTy env f as)) = _
    cases applyTy env f as <;> rfl
  rw [assign_eq_ok_iff_of_untyped rfl]
  constructor
  · rintro ⟨cs, symbol', ty, hcs, hr, rfl⟩
    obtain ⟨f, as, hf, has, rfl⟩ := List.forall₂_cons_left_iff.1 hcs
    have hr : (applyTy env f as).map (symbol, ·) = .ok (symbol', ty) :=
      (hresolve f as).symm.trans hr
    cases hty : applyTy env f as with
    | error e =>
      rw [hty] at hr
      cases hr
    | ok ty' =>
      rw [hty] at hr
      cases hr
      exact ⟨f, as, _, hf, has, hty, rfl⟩
  · rintro ⟨f, as, ty, hf, has, hty, rfl⟩
    refine ⟨f :: as, symbol, ty, .cons hf has, (hresolve f as).trans ?_, rfl⟩
    rw [hty]
    rfl

/-! ## The type of a node depends on the types below it -/

theorem applyTy_congr {callee callee' : Tree} {args args' : List Tree} {ty : Ty}
    (hcallee : callee'.ty = callee.ty) (hargs : args'.map (·.ty) = args.map (·.ty))
    (h : applyTy env callee args = .ok ty) : applyTy env callee' args' = .ok ty := by
  obtain ⟨params, tys, hmethod, htys, hconf⟩ := applyTy_eq_ok_iff.1 h
  have hlength : args'.length = args.length := by simpa using congrArg List.length hargs
  -- the arguments are looked at for their types only
  have hzip : ∀ as : List Tree, (∀ p ∈ as.zip tys, env.conforms p.1.ty p.2)
      ↔ ∀ p ∈ (as.map (·.ty)).zip tys, env.conforms p.1 p.2 := by
    intro as
    rw [List.zip_map_left, List.forall_mem_map]
    rfl
  refine applyTy_eq_ok_iff.2 ⟨params, tys, by rw [hcallee, hmethod], by rw [hlength, htys], ?_⟩
  rw [hzip, hargs, ← hzip]
  exact hconf

/-- A node over other children of the same types gets the same type. -/
theorem resolve_congr {cs cs' : List Tree} {r : SymbolRef × Ty}
    (hcs : cs'.map (·.ty) = cs.map (·.ty)) (hlength : cs.length = t.children.length)
    (h : resolve env (t.withChildren cs) = .ok r) : resolve env (t.withChildren cs') = .ok r := by
  unfold resolve at h ⊢
  obtain ⟨node, span, ty, symbol⟩ := t
  cases node with
  | select qualifier name =>
    obtain ⟨c, rfl⟩ := List.length_eq_one_iff.1 hlength
    obtain ⟨c', rfl⟩ : ∃ c', cs' = [c'] :=
      List.length_eq_one_iff.1 (by simpa using congrArg List.length hcs)
    have hc : c'.ty = c.ty := by simpa using hcs
    simp only [Tree.withChildren, Node.withChildren, List.headD_cons] at h ⊢
    rw [hc]
    exact h
  | apply callee args =>
    obtain ⟨c, cs, rfl⟩ : ∃ c ds, cs = c :: ds := List.exists_cons_of_length_eq_add_one hlength
    obtain ⟨c', cs', rfl⟩ : ∃ c' ds', cs' = c' :: ds' :=
      List.exists_cons_of_length_eq_add_one (by simpa using congrArg List.length hcs)
    simp only [List.map_cons, List.cons.injEq] at hcs
    simp only [Tree.withChildren, Node.withChildren, List.headD_cons, List.tail_cons] at h ⊢
    obtain ⟨ty, happ, hr⟩ := bind_eq_ok.1 h
    exact bind_eq_ok.2 ⟨ty, applyTy_congr hcs.1 hcs.2 happ, hr⟩
  | block stats expr =>
    have hlast : ∀ bs : List Tree,
        (bs.getLastD default).ty = (bs.map (·.ty)).getLastD .noType := by
      intro bs
      rw [List.getLastD_eq_getLast?, List.getLastD_eq_getLast?, List.getLast?_map]
      cases bs.getLast? <;> rfl
    simp only [Tree.withChildren, Node.withChildren, hlast] at h ⊢
    rw [hcs]
    exact h
  | _ => exact h

theorem retype_eq_ok_iff {expected : Ty} :
    retype env t expected = .ok t' ↔ assign env t = .ok t' ∧ env.conforms t'.ty expected := by
  unfold retype
  rw [bind_eq_ok]
  constructor
  · rintro ⟨t₁, h₁, h⟩
    obtain ⟨_, hc, h⟩ := bind_eq_ok.1 h
    cases h
    exact ⟨h₁, checkConforms_eq_ok_iff.1 hc⟩
  · rintro ⟨h₁, hc⟩
    exact ⟨t', h₁, bind_eq_ok.2 ⟨(), checkConforms_eq_ok_iff.2 hc, rfl⟩⟩

end Typing

theorem Pass.retyped_eq_ok_iff {env : Env} {rule : String} {t t' : Tree} {expected : Ty} :
    Pass.retyped env rule t expected = .ok t'
      ↔ Typing.assign env t = .ok t' ∧ env.conforms t'.ty expected := by
  rw [← Typing.retype_eq_ok_iff]
  unfold Pass.retyped
  split
  next h => rw [h]; simp
  next h => rw [h]; simp
  next h => rw [h]; simp

end Interop
