import Interop.Proofs.Assign
import Interop.Proofs.Ownership

/-!
# Typing only fills in

What typing makes of a tree is the tree again with what was missing filled in: types of nodes that
had none, and symbols of selections that had none.  Below a node that has a type nothing changes.

    retype t e = t'   →   t' = t but for these,   conforms t'.ty e,   retype t' e = t'

A node may end without a type, like a reference to a package, so a tree that was typed may have
untyped nodes at the top; these are given the same types again.
-/

namespace Interop

/-! ## Algorithm -/

/-- The tree without types and symbols: nodes with their places, names and constants. -/
def Tree.bare (t : Tree) : Tree :=
  { node := t.node.withChildren (t.children.attach.map fun ⟨c, _⟩ => c.bare), span := t.span }
termination_by sizeOf t
decreasing_by exact sizeOf_lt_of_mem_children ‹_›

/-- `u` is `t` with types and symbols filled in.  If `t` has a type they are the same, and only a
selection is given a symbol, which is that of a term of its name. -/
structure Fills (env : Env) (t u : Tree) : Prop where
  bare_eq : u.bare = t.bare
  eq_of_typed : t.ty ≠ .noType → u = t
  symbol_cases : u.symbol = t.symbol ∨ t.symbol = none ∧ ∃ qualifier name id,
    t.node = .select qualifier name ∧ u.symbol = some id ∧ env.table.isTermNamed name id

/-! ## Lemmas -/

theorem Tree.bare_eq (t : Tree) :
    t.bare = { node := t.node.withChildren (t.children.map bare), span := t.span } := by
  rw [bare]
  simp

theorem Fills.refl (env : Env) (t : Tree) : Fills env t t := ⟨rfl, fun _ => rfl, .inl rfl⟩

theorem Node.exists_of_withChildren_eq_select {α β : Type} [Inhabited β] {n : Node α} {bs : List β}
    {qualifier : β} {name : String} (h : n.withChildren bs = .select qualifier name) :
    ∃ q, n = .select q name := by
  cases n with
  | select q _ =>
    cases h
    exact ⟨q, rfl⟩
  | _ => cases h

namespace Typing

variable {env : Env} {t t' : Tree} {cs : List Tree} {symbol : SymbolRef} {ty : Ty}

/-- A node that was given a symbol and a type is given the same again. -/
theorem resolve_again (h : resolve env t = .ok (symbol, ty)) (ty' : Ty) :
    resolve env { t with symbol, ty := ty' } = .ok (symbol, ty) := by
  obtain ⟨node, span, ty₀, symbol₀⟩ := t
  cases node with
  | literal value =>
    cases h
    rfl
  | ident name =>
    obtain ⟨id, s, rfl, hs, h⟩ := resolve_ident_eq_ok_iff.1 h
    cases h
    exact resolve_ident_eq_ok_iff.2 ⟨id, s, rfl, hs, rfl⟩
  | select qualifier name =>
    obtain ⟨id, s, -, hs, h⟩ := resolve_select_eq_ok_iff.1 h
    cases h
    exact resolve_select_eq_ok_iff.2 ⟨id, s, .inl rfl, hs, rfl⟩
  | block stats expr =>
    cases h
    rfl
  | apply callee args =>
    obtain ⟨ty₁, hty₁, h⟩ := bind_eq_ok.1 h
    cases h
    exact bind_eq_ok.2 ⟨_, hty₁, rfl⟩
  | _ => cases h

/-! ## Trees -/

theorem bare_withChildren (hcs : List.Forall₂ (fun c c' : Tree => c'.bare = c.bare) t.children cs) :
    { t.withChildren cs with symbol, ty : Tree }.bare = t.bare := by
  have hlength := hcs.length_eq.symm
  rw [Tree.bare_eq, Tree.bare_eq t, Tree.children_of_withChildren hlength, map_eq_of_forall₂ hcs]
  show ({ node := (t.node.withChildren cs).withChildren _, span := t.span } : Tree) = _
  rw [Node.withChildren_withChildren hlength]

theorem bare_of_assign_eq_ok (h : assign env t = .ok t') : t'.bare = t.bare :=
  assign_induction (motive := fun t t' => t'.bare = t.bare) (fun _ _ => rfl)
    (fun _ _ _ _ _ _ hcs _ => bare_withChildren (hcs.imp fun _ _ hc => hc.2)) h

/-- **Typing fills in** at every node. -/
theorem fills_of_assign_eq_ok (h : assign env t = .ok t') :
    List.Forall₂ (Fills env) t.preorder t'.preorder := by
  refine assign_induction (motive := fun t t' => List.Forall₂ (Fills env) t.preorder t'.preorder)
    (fun t _ => ?_) (fun t cs symbol ty hty hassign hcs hr => ?_) h
  · exact List.forall₂_same.2 fun u _ => .refl env u
  · rw [Tree.preorder_eq, Tree.preorder_eq { t.withChildren cs with symbol, ty },
      Tree.children_of_withChildren hcs.length_eq.symm]
    refine .cons ⟨bare_of_assign_eq_ok hassign, fun htyped => absurd hty htyped, ?_⟩
      (List.rel_flatMap (hcs.imp fun c c' hc => hc.2) fun _ _ hc => hc)
    refine (symbol_of_resolve_eq_ok hr).imp_right fun hnew => ?_
    obtain ⟨hnone, q, name, id, hselect, hid, hmember⟩ := hnew
    obtain ⟨qualifier, hnode⟩ := Node.exists_of_withChildren_eq_select hselect
    have hnamed : id ∈ env.table.membersNamed (env.table.typeSymbol q.ty) name := by
      rw [membersNamed_of_resolveMember hmember]
      exact .head _
    exact ⟨hnone, qualifier, name, id, hnode, hid,
      SymbolTable.isTermNamed_of_mem_membersNamed hnamed⟩

/-- **Typing again** changes nothing. -/
theorem assign_again (h : assign env t = .ok t') : assign env t' = .ok t' := by
  refine assign_induction (motive := fun _ t' => assign env t' = .ok t')
    (fun t hty => (assign_eq_ok_iff_of_typed hty).2 rfl) (fun t cs symbol ty _ _ hcs hr => ?_) h
  by_cases hty : ty = .noType
  · -- the node was given no type, and is typed over children that stay as they are
    have hchildren := Tree.children_of_withChildren hcs.length_eq.symm symbol ty
    have hsame := Tree.withChildren_children { t.withChildren cs with symbol, ty }
    rw [hchildren] at hsame
    refine (assign_eq_ok_iff_of_untyped hty).2 ⟨cs, symbol, ty, ?_, ?_, ?_⟩
    · rw [hchildren]
      exact List.forall₂_same.2 (forall_of_forall₂_right (hcs.imp fun c c' hc => hc.2))
    · rw [hsame]
      exact resolve_again hr ty
    · rw [hsame]
  · exact (assign_eq_ok_iff_of_typed hty).2 rfl

/-! ## Top theorem -/

/-- **Re-typing only fills in, and once.**  It keeps the nodes of a tree with their places, names
and constants, and changes nothing at or below a node that has a type.  Elsewhere it may give a
node a type, and a selection without a symbol one of its name.  The type of the result conforms to
that of the place, and typing the result for the place gives the result. -/
theorem retype_fills (env : Env) {t t' : Tree} {expected : Ty}
    (h : retype env t expected = .ok t') :
    t'.bare = t.bare ∧ List.Forall₂ (Fills env) t.preorder t'.preorder
      ∧ env.conforms t'.ty expected ∧ retype env t' expected = .ok t' := by
  obtain ⟨hassign, hconforms⟩ := retype_eq_ok_iff.1 h
  exact ⟨bare_of_assign_eq_ok hassign, fills_of_assign_eq_ok hassign, hconforms,
    retype_eq_ok_iff.2 ⟨assign_again hassign, hconforms⟩⟩

/-- The block `host; d.selectDynamic("x")`, with nothing typed but `d`. -/
def packageAndCall : Tree :=
  let host : Tree := { node := .ident "host", symbol := some Library.fresh.1.hostPackage }
  let d : Tree := { node := .ident "d", ty := Library.classTy Library.fresh.1.jsDynamic }
  let select : Tree := { node := .select d "selectDynamic" }
  { node := .block [host] { node := .apply select [.literal (.str "x") {}] } }

/-- The package stays untyped, and the selection is given its symbol. -/
theorem retype_fills_packageAndCall : ∃ t', retype (.declaring []) packageAndCall .noType = .ok t'
    ∧ t'.bare = packageAndCall.bare
    ∧ t'.preorder.map (·.symbol) = [none, some Library.fresh.1.hostPackage, none,
        some Library.fresh.1.selectDynamic, none, none]
    ∧ t'.preorder.map (·.ty == .noType) = [false, true, false, false, false, false]
    ∧ retype (.declaring []) t' .noType = .ok t' := by
  have hnodes : (retype (.declaring []) packageAndCall .noType).toOption.map
      (fun t' => (t'.preorder.map (·.symbol), t'.preorder.map (·.ty == .noType)))
      = some ([none, some Library.fresh.1.hostPackage, none,
          some Library.fresh.1.selectDynamic, none, none],
        [false, true, false, false, false, false]) := by
    decide +kernel
  cases hretype : retype (.declaring []) packageAndCall .noType with
  | error e =>
    rw [hretype] at hnodes
    cases hnodes
  | ok t' =>
    rw [hretype] at hnodes
    obtain ⟨hsymbols, htys⟩ := Prod.mk.inj (Option.some.inj hnodes)
    obtain ⟨hbare, -, -, hagain⟩ := retype_fills (.declaring []) hretype
    exact ⟨t', rfl, hbare, hsymbols, htys, hagain⟩

end Typing

end Interop
