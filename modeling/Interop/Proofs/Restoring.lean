import Interop.Proofs.Declarations

/-!
# Shorthands can be had back

A dynamic shorthand and the call that it becomes say the same.  If no look-up by name is written
out in the source, all those in the tree that comes out were shorthands, and folding them back

    r.applyDynamic("x")(args)  to  r.x(args)
    r.selectDynamic("x")       to  r.x

at every depth gives the source again:

    restored out  =  respelled t

Here `respelled t` is `t` with one spelling for its shorthands, and without their types and symbols.
-/

namespace Interop

/-! ## Algorithm -/

/-- The receiver of `receiver.method("x")`. -/
def Tree.lookedUp? (method : SymbolId) (t : Tree) : Option Tree :=
  match t.node with
  | .apply ⟨.select receiver _, _, _, symbol⟩ [⟨.literal (.str name), _, _, _⟩] =>
    if symbol = some method && name = shorthandName then some receiver else none
  | _ => none

namespace Env

variable (env : Env)

/-- The shorthand for a look-up of `x`, without a type; any other tree itself.  The call that looks
up has the place of the selection of `x`. -/
def restore (t : Tree) : Tree :=
  match t.node with
  | .apply callee args =>
    match callee.lookedUp? env.lib.applyDynamic, t.lookedUp? env.lib.selectDynamic with
    | some receiver, _ =>
      let select : Tree := { node := .select receiver shorthandName, span := callee.span }
      { t with node := .apply select args, ty := .noType }
    | none, some receiver => { t with node := .select receiver shorthandName, ty := .noType }
    | none, none => t
  | _ => t

/-- The tree with shorthands for the look-ups of `x` at every depth. -/
def restored (t : Tree) : Tree :=
  env.restore (t.withChildren (t.children.attach.map fun ⟨c, _⟩ => restored c))
termination_by sizeOf t
decreasing_by exact Tree.sizeOf_lt_of_mem_children ‹_›

/-- The symbol is that of a method which looks up members of dynamic values. -/
def isLookUp (symbol : SymbolRef) : Bool :=
  symbol = some env.lib.selectDynamic || symbol = some env.lib.applyDynamic

end Env

namespace Pass

variable (env : Env)

/-- The node over the children `cs`; a shorthand is spelled `x` and has no type and no symbol. -/
def respell (t : Tree) (scope : Scope) (cs : List Tree) : Tree :=
  match Rule.find? env t scope with
  | some .dynamicApply => { t.withChildren cs with ty := .noType, symbol := none }
  | some .dynamicSelect =>
    { t with node := .select (cs.headD default) shorthandName, ty := .noType, symbol := none }
  | _ => t.withChildren cs

/-- The tree with one spelling for its shorthands. -/
def respelled (t : Tree) (scope : Scope) : Tree :=
  respell env t scope (t.children.attach.map fun ⟨c, _⟩ => respelled c (inner env t scope))
termination_by sizeOf t
decreasing_by exact Tree.sizeOf_lt_of_mem_children ‹_›

/-- Of the tree only shorthands are rewritten, and it has no look-ups that were written out. -/
structure Restorable (a : Annotations) (t : Tree) (scope : Scope) : Prop where
  /-- no look-up is written out -/
  symbols : ∀ u ∈ t.preorder, ¬ env.isLookUp u.symbol
  /-- what a shorthand is applied to has types -/
  arguments : ∀ u ∈ t.preorder, env.isDynamicApply u → ∀ c ∈ u.children.tail, c.ty ≠ .noType
  /-- there are no type tokens -/
  tokens : ∀ u ∈ t.preorder, ¬ env.isTypeToken u
  /-- no value gets its name -/
  values : ∀ v ∈ visits env t scope, Rule.find? env v.1 v.2 ≠ some .enumValueDef
  /-- no method is exported -/
  methods : ∀ u ∈ t.preorder, u.node.isDefDef → env.exportsOf a u.symbol = []

end Pass

/-! ## Lemmas -/

section

variable {env : Env} {t : Tree}

theorem Tree.lookedUp?_eq_none {method : SymbolId}
    (h : ∀ callee args, t.node = .apply callee args → callee.symbol ≠ some method) :
    t.lookedUp? method = none := by
  unfold lookedUp?
  split
  next ht => simp [h _ _ ht]
  next => rfl

theorem lookedUp?_typedDynamicCall (receiver : Tree) (method : String) (symbol : SymbolId) (ty : Ty)
    (span : Span) :
    (typedDynamicCall receiver method symbol ty span).lookedUp? symbol = some receiver := by
  simp [Tree.lookedUp?, typedDynamicCall, Tree.literal]

namespace Env

theorem isLookUp_iff {symbol : SymbolRef} : env.isLookUp symbol
    ↔ symbol = some env.lib.selectDynamic ∨ symbol = some env.lib.applyDynamic := by
  simp [isLookUp]

theorem restored_eq (env : Env) (t : Tree) :
    env.restored t = env.restore (t.withChildren (t.children.map env.restored)) := by
  rw [restored]
  simp

theorem restore_of_not_apply (h : ∀ callee args, t.node ≠ .apply callee args) :
    env.restore t = t := by
  unfold restore
  split
  next ht => exact absurd ht (h _ _)
  next => rfl

/-- Where no look-up is written out there is nothing to restore. -/
theorem restore_of_symbols (h : ∀ u ∈ t.preorder, ¬ env.isLookUp u.symbol) :
    env.restore t = t := by
  by_cases happly : ∃ callee args, t.node = .apply callee args
  · obtain ⟨callee, args, ht⟩ := happly
    have hcallee := Tree.callee_mem_children ht
    have hselect : t.lookedUp? env.lib.selectDynamic = none := by
      refine Tree.lookedUp?_eq_none fun f as hf hsymbol => ?_
      exact h f (Tree.mem_preorder_of_mem_children (Tree.callee_mem_children hf))
        (isLookUp_iff.2 (.inl hsymbol))
    have happly : callee.lookedUp? env.lib.applyDynamic = none := by
      refine Tree.lookedUp?_eq_none fun f as hf hsymbol => ?_
      exact h f (Tree.preorder_subset_of_mem_children hcallee
        (Tree.mem_preorder_of_mem_children (Tree.callee_mem_children hf)))
        (isLookUp_iff.2 (.inr hsymbol))
    unfold restore
    simp only [ht, hselect, happly]
  · exact restore_of_not_apply fun callee args ht => happly ⟨callee, args, ht⟩

/-- The call of a look-up is restored after its receiver. -/
theorem restored_typedDynamicCall (env : Env) (receiver : Tree) (method : String)
    (symbol : SymbolId) (ty : Ty) (span : Span) :
    env.restored (typedDynamicCall receiver method symbol ty span)
      = env.restore (typedDynamicCall (env.restored receiver) method symbol ty span) := by
  have hbelow : ∀ u : Tree, (∀ callee args, u.node ≠ .apply callee args) →
      env.restored u = u.withChildren (u.children.map env.restored) := by
    intro u hu
    rw [restored_eq, restore_of_not_apply]
    intro callee args h
    cases hnode : u.node <;> simp [Tree.withChildren, hnode, Node.withChildren] at h
    exact hu _ _ hnode
  rw [restored_eq]
  congr 1
  simp only [typedDynamicCall, Tree.withChildren, Tree.children, Node.children, List.map_cons,
    List.map_nil, Node.withChildren, List.headD_cons, List.tail_cons]
  rw [hbelow _ (by simp), hbelow _ (by simp [Tree.literal])]
  rfl

/-- The call of a selection is one again. -/
theorem restored_selectDynamic (env : Env) (receiver : Tree) (method : String) (ty : Ty)
    (span : Span) :
    env.restored (typedDynamicCall receiver method env.lib.selectDynamic ty span)
      = { node := .select (env.restored receiver) shorthandName, span } := by
  rw [restored_typedDynamicCall]
  unfold restore
  rw [lookedUp?_typedDynamicCall]
  rfl

/-- The call of an application is one again. -/
theorem restored_applyDynamic (henv : env.Installed) (receiver : Tree) (args : List Tree)
    (method : String) (ty ty' : Ty) (span span' : Span) :
    env.restored
        { node := .apply (typedDynamicCall receiver method env.lib.applyDynamic ty span) args
          span := span', ty := ty' }
      = { node := .apply { node := .select (env.restored receiver) shorthandName, span }
            (args.map env.restored)
          span := span' } := by
  have hne : env.lib.applyDynamic ≠ env.lib.selectDynamic := by
    rw [henv.lib_eq]
    decide
  have hnone : (typedDynamicCall (env.restored receiver) method env.lib.applyDynamic ty
      span).lookedUp? env.lib.selectDynamic = none := by
    refine Tree.lookedUp?_eq_none ?_
    rintro _ _ ⟨⟩
    simpa using hne
  -- the call that is applied is no selection on its own
  have hcall : env.restored (typedDynamicCall receiver method env.lib.applyDynamic ty span)
      = typedDynamicCall (env.restored receiver) method env.lib.applyDynamic ty span := by
    rw [restored_typedDynamicCall]
    unfold restore
    rw [hnone]
    rfl
  rw [restored_eq]
  simp only [Tree.children, Node.children, Tree.withChildren, Node.withChildren, List.map_cons,
    List.headD_cons, List.tail_cons, hcall]
  unfold restore
  simp only [lookedUp?_typedDynamicCall]
  rfl

end Env

end

namespace Pass

variable {env : Env} {options : Options} {a : Annotations} {t u : Tree} {scope : Scope}
  {s s' : State} {out : Tree}

theorem respelled_eq (env : Env) (t : Tree) (scope : Scope) : respelled env t scope
    = respell env t scope (t.children.map (respelled env · (inner env t scope))) := by
  rw [respelled]
  simp

theorem respelled_of_kept (h : Kept env t scope) : respelled env t scope
    = t.withChildren (t.children.map (respelled env · (inner env t scope))) := by
  rw [respelled_eq]
  unfold respell
  split
  next hfind => cases h _ hfind
  next hfind => cases h _ hfind
  next => rfl

theorem respelled_of_isDynamicSelect (h : env.isDynamicSelect t) {receiver : Tree} {name : String}
    (ht : t.node = .select receiver name) (scope : Scope) : respelled env t scope
      = { node := .select (respelled env receiver scope) shorthandName, span := t.span } := by
  rw [respelled_eq, inner_of_not_isImplDef (by rw [ht]; simp [Node.isImplDef]), Tree.children, ht,
    respell, Rule.find?_eq_dynamicSelect_iff.2 h]
  rfl

theorem respelled_of_dynamicApply (h : Rule.find? env t scope = some .dynamicApply)
    {callee receiver : Tree} {args : List Tree} {name : String} (ht : t.node = .apply callee args)
    (hcallee : callee.node = .select receiver name) (hselect : env.isDynamicSelect callee) :
    respelled env t scope
      = { node := .apply
            { node := .select (respelled env receiver (inner env t scope)) shorthandName
              span := callee.span }
            (args.map (respelled env · (inner env t scope)))
          span := t.span } := by
  rw [respelled_eq, Tree.children, ht, respell, h]
  simp only [Tree.withChildren, ht, Node.children, Node.withChildren, List.map_cons,
    List.headD_cons, List.tail_cons, respelled_of_isDynamicSelect hselect hcallee]

/-- No look-up is written out in a tree, however its shorthands are spelled. -/
theorem symbols_respelled {t : Tree} (h : ∀ u ∈ t.preorder, ¬ env.isLookUp u.symbol)
    (scope : Scope) : ∀ u ∈ (respelled env t scope).preorder, ¬ env.isLookUp u.symbol := by
  have hchildren : ∀ c ∈ t.children.map (respelled env · (inner env t scope)),
      ∀ u ∈ c.preorder, ¬ env.isLookUp u.symbol := by
    intro _ hc
    obtain ⟨c, hmem, rfl⟩ := List.mem_map.1 hc
    exact symbols_respelled (fun v hv => h v (Tree.preorder_subset_of_mem_children hmem hv)) _
  have hnone : ¬ env.isLookUp none := by simp [Env.isLookUp]
  rw [respelled_eq, Tree.forall_mem_preorder]
  unfold respell
  split
  next =>
    have hsame : (t.withChildren (t.children.map (respelled env · (inner env t scope)))).children
        = t.children.map (respelled env · (inner env t scope)) :=
      Tree.children_withChildren (List.length_map _)
    rw [← hsame] at hchildren
    exact ⟨hnone, hchildren⟩
  next hfind =>
    obtain ⟨receiver, name, ht, -⟩ :=
      Env.isDynamicSelect_iff.1 (Rule.find?_eq_dynamicSelect_iff.1 hfind)
    rw [Tree.children, ht] at hchildren
    rw [Tree.children, ht]
    exact ⟨hnone, hchildren⟩
  next =>
    rw [Tree.children_withChildren (List.length_map _)]
    exact ⟨h t t.mem_preorder_self, hchildren⟩
termination_by sizeOf t
decreasing_by exact Tree.sizeOf_lt_of_mem_children hmem

/-! ## Parts -/

namespace Restorable

theorem part (h : Restorable env a t scope) {c : Tree} (hc : c ∈ parts env t scope) :
    Restorable env a c (inner env t scope) := by
  have hsub : c.preorder ⊆ t.preorder :=
    preorder_subset_of_mem_parts (h.values _ (mem_visits_self env t scope)) hc
  exact {
    symbols := fun u hu => h.symbols u (hsub hu)
    arguments := fun u hu => h.arguments u (hsub hu)
    tokens := fun u hu => h.tokens u (hsub hu)
    values := fun v hv => h.values v (visits_subset_of_mem_parts hc hv)
    methods := fun u hu => h.methods u (hsub hu) }

/-- **What may become of a node** where only shorthands are rewritten. -/
theorem stages (h : Restorable env a t scope) :
    Kept env t scope
    ∨ (Rule.find? env t scope = some .dynamicApply
        ∧ ∃ callee args receiver name, t.node = .apply callee args
          ∧ callee.node = .select receiver name)
    ∨ (Rule.find? env t scope = some .dynamicSelect
        ∧ ∃ receiver name, t.node = .select receiver name) := by
  rcases stages_cases env t scope with hkept | ⟨hfind, -⟩ | ⟨hfind, -⟩ | happly | hselect
  · exact .inl hkept
  · exact absurd (Rule.find?_eq_typeToken_iff.1 hfind) (h.tokens t t.mem_preorder_self)
  · exact absurd hfind (h.values _ (mem_visits_self env t scope))
  · exact .inr (.inl happly)
  · exact .inr (.inr hselect)

end Restorable

/-! ## The tree that comes out -/

/-- The tree that comes of a part is the part again once it is restored. -/
structure Restores (env : Env) (options : Options) (t : Tree) (scope : Scope) (out : Tree) :
    Prop where
  ty_eq : out.ty = resultTy env options t scope
  restored_eq : env.restored out = respelled env t scope

/-- What comes of a node with a type has one. -/
theorem Restores.ty_ne_noType (hout : Restores env options t scope out)
    (h : Restorable env a t scope) (ht : t.ty ≠ .noType) : out.ty ≠ .noType := by
  rw [hout.ty_eq]
  exact resultTy_ne_noType ht fun htoken => h.tokens t t.mem_preorder_self htoken.1

theorem map_restored {ps cs : List Tree}
    (h : List.Forall₂ (fun c c' => Restores env options c scope c') ps cs) :
    cs.map env.restored = ps.map (respelled env · scope) := by
  rw [← List.forall₂_eq_eq_eq, List.forall₂_map_left_iff, List.forall₂_map_right_iff]
  exact h.flip.imp fun _ _ h => h.restored_eq

theorem ne_noType_of_isDynamicSelect {receiver : Tree} {name : String}
    (ht : t.node = .select receiver name) (h : env.isDynamicSelect t) : receiver.ty ≠ .noType := by
  obtain ⟨_, _, ht', -, hty⟩ := Env.isDynamicSelect_iff.1 h
  rw [ht] at ht'
  cases ht'
  intro hnone
  rw [hnone] at hty
  cases hty

theorem restored_of_dynamicApply (henv : env.Installed) (h : Restorable env a t scope)
    (hfind : Rule.find? env t scope = some .dynamicApply) {callee receiver : Tree}
    {args cs : List Tree} {name : String} (ht : t.node = .apply callee args)
    (hcallee : callee.node = .select receiver name)
    (hcs : List.Forall₂ (fun c c' => Restores env options c (inner env t scope) c')
      (parts env t scope) cs)
    (hrebuild : rebuild env options t scope cs = .ok u) :
    env.restored u = respelled env t scope := by
  have hdynamic := Rule.applies_of_find?_eq_some hfind
  obtain ⟨_, _, ht', hselect⟩ := Env.isDynamicApply_iff.1 hdynamic
  obtain ⟨rfl, rfl⟩ : callee = _ ∧ args = _ := by simpa [ht] using ht'
  have hparts := parts_of_dynamicApply hfind ht hcallee
  have hargs : ∀ c ∈ args, c.ty ≠ .noType := by
    have := h.arguments t t.mem_preorder_self hdynamic
    rwa [Tree.children, ht] at this
  rw [hparts] at hcs
  obtain ⟨r, as, hr, has, rfl⟩ := List.forall₂_cons_left_iff.1 hcs
  rw [rebuild_of_dynamicApply hfind ht] at hrebuild
  obtain ⟨r', as', hr', has', -, rfl⟩ := (applyDynamic_eq_ok_iff henv).1 hrebuild
  have hrty : r.ty ≠ .noType := hr.ty_ne_noType (h.part (hparts ▸ .head _))
    (ne_noType_of_isDynamicSelect hcallee hselect)
  have hasty : ∀ c ∈ as, c.ty ≠ .noType := by
    have hmem := (List.forall₂_and_left _ _).2 ⟨fun _ hc => hc, has⟩
    exact forall_of_forall₂_right (hmem.imp fun c _ h' =>
      h'.2.ty_ne_noType (h.part (hparts ▸ .tail _ h'.1)) (hargs c h'.1))
  obtain rfl := (Typing.assign_eq_ok_iff_of_typed hrty).1 hr'
  obtain rfl := Typing.eq_of_forall₂_assign hasty has'
  rw [Env.restored_applyDynamic henv, respelled_of_dynamicApply hfind ht hcallee hselect,
    hr.restored_eq, map_restored has]

theorem restored_of_dynamicSelect (henv : env.Installed) (h : Restorable env a t scope)
    (hfind : Rule.find? env t scope = some .dynamicSelect) {receiver : Tree} {cs : List Tree}
    {name : String} (ht : t.node = .select receiver name)
    (hcs : List.Forall₂ (fun c c' => Restores env options c (inner env t scope) c')
      (parts env t scope) cs)
    (hrebuild : rebuild env options t scope cs = .ok u) :
    env.restored u = respelled env t scope := by
  have hselect := Rule.find?_eq_dynamicSelect_iff.1 hfind
  have hparts := parts_of_dynamicSelect hfind ht
  rw [hparts] at hcs
  obtain ⟨r, _, hr, hnil, rfl⟩ := List.forall₂_cons_left_iff.1 hcs
  cases hnil
  rw [rebuild_of_dynamicSelect hfind] at hrebuild
  obtain ⟨r', hr', -, rfl⟩ := (selectDynamic_eq_ok_iff henv).1 hrebuild
  have hrty : r.ty ≠ .noType := hr.ty_ne_noType (h.part (hparts ▸ .head _))
    (ne_noType_of_isDynamicSelect ht hselect)
  obtain rfl := (Typing.assign_eq_ok_iff_of_typed hrty).1 hr'
  rw [Env.restored_selectDynamic, respelled_of_isDynamicSelect hselect ht, hr.restored_eq,
    inner_of_not_isImplDef (by rw [ht]; simp [Node.isImplDef])]

/-- A node that is put together from what its parts came to is restored with them. -/
theorem restored_of_rebuild (henv : env.Installed) (h : Restorable env a t scope) {cs : List Tree}
    (hcs : List.Forall₂ (fun c c' => Restores env options c (inner env t scope) c')
      (parts env t scope) cs)
    (hrebuild : rebuild env options t scope cs = .ok u) :
    env.restored u = respelled env t scope := by
  rcases h.stages with
    hkept | ⟨hfind, callee, args, receiver, name, ht, hcallee⟩ | ⟨hfind, receiver, name, ht⟩
  · rw [rebuild_of_kept hkept] at hrebuild
    cases hrebuild
    have hlength : cs.length = t.children.length := by
      rw [← hcs.length_eq, parts_of_kept hkept]
    rw [Env.restored_eq, Tree.children_withChildren hlength,
      Tree.withChildren_withChildren hlength, map_restored hcs, parts_of_kept hkept,
      ← respelled_of_kept hkept]
    exact Env.restore_of_symbols (symbols_respelled h.symbols scope)
  · exact restored_of_dynamicApply henv h hfind ht hcallee hcs hrebuild
  · exact restored_of_dynamicSelect henv h hfind ht hcs hrebuild

/-- **What comes out** is the source again once it is restored. -/
theorem restores_of_ends (henv : env.Installed) (h : Restorable env a t scope)
    (ha : env.exportsOf s.annotations = env.exportsOf a) (hs : s.waiting = [])
    (hends : Ends (transform env options t scope) s out s') :
    Restores env options t scope out ∧ env.exportsOf s'.annotations = env.exportsOf a
      ∧ s'.waiting = [] := by
  induction t, scope using parts_induction env generalizing s s' out with
  | h t scope ih =>
    have hforwarding : Forwarding s := by
      intro w hw
      rw [hs] at hw
      cases hw
    have hty := (rewritten_of_ends henv hends hforwarding).1.ty_eq
    obtain ⟨s₁, cs, s₂, u, hopen, hparts, hrebuild, hleave⟩ := ends_transform_iff.1 hends
    have ha₁ : env.exportsOf s₁.annotations = env.exportsOf a :=
      (exportsOf_eq_of_ends_opening henv hopen).trans ha
    have hs₁ : s₁.waiting = [] := by
      rw [waiting_of_ends_opening ha hopen, hs, calls_eq_nil (h.methods t t.mem_preorder_self)]
      rfl
    obtain ⟨hcs, ha₂, hs₂⟩ := hparts.forall₂_of_preserved
      (P := fun s => env.exportsOf s.annotations = env.exportsOf a ∧ s.waiting = [])
      (fun c hc s c' s' hs hends => ih c hc (h.part hc) hs.1 hs.2 hends) ⟨ha₁, hs₁⟩
    obtain ⟨rfl, ha', hs'⟩ := eq_of_ends_leave_of_waiting_eq_nil hs₂ hleave
    exact ⟨⟨hty, restored_of_rebuild henv h hcs hrebuild⟩, by rw [ha', ha₂], hs'⟩

/-! ## Top theorem -/

/-- **Nothing is lost with the shorthands.**  Where only shorthands are rewritten, folding back the
look-ups in the tree that comes out gives the source: the same nodes at the same places, with their
types and symbols.  Only the shorthands themselves are respelled. -/
theorem shorthands_restored (ds : List Declaration) (options : Options) (a : Annotations) (t : Tree)
    (scope : Scope) (s : State) (out : Tree) (ht : Restorable (.declaring ds) a t scope)
    (h : Ends (transform (.declaring ds) options t scope) { annotations := a } out s) :
    (Env.declaring ds).restored out = respelled (.declaring ds) t scope :=
  (restores_of_ends (Env.installed_declaring ds) ht rfl rfl h).1.restored_eq

/-- The dynamic value `d`. -/
def dynamicRef (start : Nat) : Tree :=
  { node := .ident "d", span := ⟨start, start + 1⟩, symbol := some 30
    ty := Library.classTy Library.fresh.1.jsDynamic }

/-- The selection `receiver.x`. -/
def selectX (receiver : Tree) (span : Span) : Tree :=
  { node := .select receiver "x", span, ty := Library.classTy Library.fresh.1.jsDynamic }

/-- The application `receiver.x(args)`, with a symbol of its own or without. -/
def applyX (receiver : Tree) (args : List Tree) (symbol : SymbolRef) : Tree :=
  { node := .apply { node := .select receiver "x", span := ⟨0, 5⟩ } args, span := ⟨0, 10⟩
    ty := Library.classTy Library.fresh.1.jsDynamic, symbol }

/-- The nested shorthands `d.x.x(d.x)`. -/
def nestedShorthands : Tree :=
  applyX (selectX (dynamicRef 0) ⟨0, 3⟩) [selectX (dynamicRef 6) ⟨6, 9⟩] none

/-- Nested shorthands come back as they were. -/
theorem shorthands_restored_nested :
    ∃ out s, Ends (transform (.declaring dynamicValue) {} nestedShorthands .root)
          { annotations := .blank 31 } out s
      ∧ ((Env.declaring dynamicValue).restored out).preorder.map
            (fun u => (u.node.shape, u.symbol, u.span))
          = nestedShorthands.preorder.map fun u => (u.node.shape, u.symbol, u.span) := by
  have hrestorable : Restorable (.declaring dynamicValue) (.blank 31) nestedShorthands .root := {
    symbols := by decide +kernel
    arguments := by decide +kernel
    tokens := by decide +kernel
    values := by decide +kernel
    methods := by decide +kernel }
  obtain ⟨out, s, hends⟩ : ∃ out s,
      Ends (transform (.declaring dynamicValue) {} nestedShorthands .root)
        { annotations := .blank 31 } out s := by
    refine exists_ends_of_isOk ?_
    decide +kernel
  refine ⟨out, s, hends, ?_⟩
  rw [shorthands_restored dynamicValue {} (.blank 31) _ .root s out hrestorable hends]
  decide +kernel

/-- An application that has a symbol of its own comes back without it. -/
theorem symbol_of_applyX_lost :
    Restorable (.declaring dynamicValue) (.blank 31) (applyX (dynamicRef 0) [] (some 30)) .root
      ∧ ∃ out s, Ends (transform (.declaring dynamicValue) {} (applyX (dynamicRef 0) [] (some 30))
              .root) { annotations := .blank 31 } out s
          ∧ ((Env.declaring dynamicValue).restored out).symbol
            ≠ (applyX (dynamicRef 0) [] (some 30)).symbol := by
  have hrestorable : Restorable (.declaring dynamicValue) (.blank 31)
      (applyX (dynamicRef 0) [] (some 30)) .root := {
    symbols := by decide +kernel
    arguments := by decide +kernel
    tokens := by decide +kernel
    values := by decide +kernel
    methods := by decide +kernel }
  obtain ⟨out, s, hends⟩ : ∃ out s,
      Ends (transform (.declaring dynamicValue) {} (applyX (dynamicRef 0) [] (some 30)) .root)
        { annotations := .blank 31 } out s := by
    refine exists_ends_of_isOk ?_
    decide +kernel
  refine ⟨hrestorable, out, s, hends, ?_⟩
  obtain ⟨hrestores, -⟩ :=
    restores_of_ends (Env.installed_declaring dynamicValue) hrestorable rfl rfl hends
  rw [hrestores.restored_eq]
  decide +kernel

end Pass

end Interop
