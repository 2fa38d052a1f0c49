import Interop.Proofs.Ownership
import Interop.Proofs.Rewrites

/-!
# Look-ups in typing and rewriting

A tree is closed if every symbol that its nodes name is in the table.  Typing looks up the symbols
of references, and what it finds by name is in the table, so on a closed tree it never asks for a
symbol that is missing, and what it makes of the tree is closed again:

    closed t  →  assign t  is a closed tree or a type error

The trees that rules build name symbols of the source and of the libraries only, so the same holds
of these (`avoids_rebuild`).
-/

namespace Interop

/-! ## Algorithm -/

/-- There is an answer, which has the property, or there is none for another reason than `e`. -/
def Avoids {ε α : Type} (e : ε) (Q : α → Prop) : Except ε α → Prop
  | .ok a => Q a
  | .error e' => e' ≠ e

/-- The symbols that the nodes name are in the table. -/
def Env.Closed (env : Env) (t : Tree) : Prop := ∀ u ∈ t.preorder, env.table.knows u.symbol

/-! ## Answers -/

namespace Avoids

variable {ε α β : Type} {e : ε} {Q : α → Prop} {R : β → Prop}

theorem bind {x : Except ε α} {f : α → Except ε β} (hx : Avoids e Q x)
    (hf : ∀ a, Q a → Avoids e R (f a)) : Avoids e R (x >>= f) := by
  cases x with
  | error _ => exact hx
  | ok a => exact hf a hx

theorem mapM {f : α → Except ε β} {as : List α} (h : ∀ a ∈ as, Avoids e R (f a)) :
    Avoids e (fun bs => bs.length = as.length ∧ ∀ b ∈ bs, R b) (as.mapM f) := by
  induction as with
  | nil => exact ⟨rfl, List.forall_mem_nil _⟩
  | cons a as ih =>
    rw [List.mapM_cons]
    refine (h a (.head _)).bind fun b hb => ?_
    refine (ih fun a' ha' => h a' (.tail _ ha')).bind fun bs hbs => ?_
    exact ⟨congrArg (· + 1) hbs.1, List.forall_mem_cons.2 ⟨hb, hbs.2⟩⟩

theorem of_ok {x : Except ε α} (h : Avoids e Q x) {a : α} (hx : x = .ok a) : Q a := by
  rw [hx] at h
  exact h

theorem ne_error {x : Except ε α} (h : Avoids e Q x) : x ≠ .error e := by
  rintro rfl
  exact h rfl

end Avoids

/-! ## Closed trees -/

namespace Env

variable {env : Env} {t : Tree}

theorem closed_iff : env.Closed t
    ↔ env.table.knows t.symbol ∧ ∀ c ∈ t.children, env.Closed c :=
  Tree.forall_mem_preorder

theorem Closed.symbol (h : env.Closed t) : env.table.knows t.symbol := (closed_iff.1 h).1

theorem Closed.of_mem_children (h : env.Closed t) {c : Tree} (hc : c ∈ t.children) :
    env.Closed c :=
  (closed_iff.1 h).2 c hc

theorem closed_of_children_eq_nil (hsymbol : env.table.knows t.symbol) (ht : t.children = []) :
    env.Closed t := by
  refine closed_iff.2 ⟨hsymbol, fun c hc => ?_⟩
  rw [ht] at hc
  cases hc

/-- A node over other closed children, whatever its type. -/
theorem closed_withChildren {cs : List Tree} {symbol : SymbolRef} (hsymbol : env.table.knows symbol)
    (hlength : cs.length = t.children.length) (hcs : ∀ c ∈ cs, env.Closed c) (ty : Ty) :
    env.Closed { t.withChildren cs with symbol, ty } := by
  refine closed_iff.2 ⟨hsymbol, fun c hc => hcs c ?_⟩
  rwa [← Tree.children_withChildren hlength]

end Env

/-! ## Typing -/

namespace Typing

variable {env : Env} {t : Tree}

theorem avoids_infoOf {id : SymbolId} (h : env.table.knows (some id)) :
    Avoids .missingSymbol (fun _ => True) (infoOf env (some id)) := by
  obtain ⟨s, hs⟩ := SymbolTable.exists_get?_iff.2 (SymbolTable.knows_some.1 h)
  unfold infoOf
  rw [hs]
  trivial

theorem avoids_resolveMember (owner : SymbolRef) (name : String) :
    Avoids .missingSymbol (fun id => env.table.knows (some id)) (resolveMember env owner name) := by
  unfold resolveMember
  split
  next member hmember =>
    have hmem : member ∈ env.table.membersNamed owner name := by
      rw [hmember]
      exact .head _
    exact SymbolTable.knows_some.2
      (SymbolTable.lt_size_of_isTermNamed (SymbolTable.isTermNamed_of_mem_membersNamed hmem))
  next => exact Failure.noConfusion
  next => exact Failure.noConfusion

theorem avoids_checkConforms (found expected : Ty) :
    Avoids .missingSymbol (fun _ => True) (checkConforms env found expected) := by
  unfold checkConforms
  split
  next => trivial
  next => exact Failure.noConfusion

theorem avoids_applyTy (callee : Tree) (args : List Tree) :
    Avoids .missingSymbol (fun _ => True) (applyTy env callee args) := by
  have hargs : ∀ ps : List (Tree × Ty), Avoids .missingSymbol (fun _ => True)
      (ps.forM fun p => checkConforms env p.1.ty p.2) := by
    intro ps
    induction ps with
    | nil => trivial
    | cons p ps ih => exact (avoids_checkConforms p.1.ty p.2).bind fun _ _ => ih
  unfold applyTy
  split
  next =>
    split
    next => exact Failure.noConfusion
    next => exact (hargs _).bind fun _ _ => trivial
  next => exact Failure.noConfusion

/-- A node is given a symbol that is in the table, if its own is. -/
theorem avoids_resolve (h : env.table.knows t.symbol) :
    Avoids .missingSymbol (fun r => env.table.knows r.1) (resolve env t) := by
  have hinfo : ∀ id, env.table.knows (some id) →
      Avoids .missingSymbol (fun r : SymbolRef × Ty => env.table.knows r.1)
        (do return (some id, ← infoOf env (some id))) :=
    fun id hid => (avoids_infoOf hid).bind fun _ _ => hid
  unfold resolve
  split
  next => exact h
  next =>
    split
    next id hid => exact hinfo id (hid ▸ h)
    next => exact (avoids_resolveMember _ _).bind hinfo
  next =>
    split
    next id hid => exact hinfo id (hid ▸ h)
    next => exact Failure.noConfusion
  next => exact (avoids_applyTy _ _).bind fun _ _ => h
  next => exact h
  next => exact Failure.noConfusion

/-- **Typing a closed tree misses no symbol.** -/
theorem avoids_assign {t : Tree} (h : env.Closed t) :
    Avoids .missingSymbol env.Closed (assign env t) := by
  by_cases hty : t.ty.isTyped
  · rw [assign_of_typed env hty]
    exact h
  · rw [assign_of_untyped env hty, Node.mapM_eq_withChildren]
    simp only [bind_assoc, pure_bind]
    have hchildren : ∀ c ∈ t.children, Avoids .missingSymbol env.Closed (assign env c) :=
      fun c hc => avoids_assign (h.of_mem_children hc)
    refine (Avoids.mapM hchildren).bind ?_
    rintro cs ⟨hlength, hcs⟩
    refine (avoids_resolve (t := t.withChildren cs) h.symbol).bind ?_
    rintro ⟨symbol, ty⟩ hsymbol
    exact Env.closed_withChildren hsymbol hlength hcs ty
termination_by sizeOf t
decreasing_by exact Tree.sizeOf_lt_of_mem_children hc

theorem avoids_retype (h : env.Closed t) (expected : Ty) :
    Avoids .missingSymbol env.Closed (retype env t expected) :=
  (avoids_assign h).bind fun t' ht' => (avoids_checkConforms t'.ty expected).bind fun _ _ => ht'

end Typing

/-! ## Rewriting -/

namespace Pass

variable {env : Env} {options : Options} {t : Tree} {scope : Scope}

theorem avoids_retyped (rule : String) (h : env.Closed t) (expected : Ty) :
    Avoids .missingSymbol env.Closed (retyped env rule t expected) := by
  have hretype := Typing.avoids_retype h expected
  unfold retyped
  split
  next heq => exact hretype.of_ok heq
  next => exact Abort.noConfusion
  next heq => exact absurd heq hretype.ne_error

theorem closed_literal (env : Env) (value : Constant) (span : Span) :
    env.Closed (.literal value span) :=
  Env.closed_of_children_eq_nil rfl rfl

theorem closed_dynamicCall {receiver : Tree} (hreceiver : env.Closed receiver) {symbol : SymbolId}
    (hsymbol : env.table.knows (some symbol)) (method : String) (span : Span) :
    env.Closed (dynamicCall receiver method symbol span) := by
  have hselect : env.Closed { node := .select receiver method, span, symbol := some symbol } :=
    Env.closed_iff.2 ⟨hsymbol, fun c hc => (List.mem_singleton.1 hc) ▸ hreceiver⟩
  refine Env.closed_iff.2 ⟨rfl, fun c hc => ?_⟩
  rcases List.mem_cons.1 hc with rfl | hc
  · exact hselect
  · rw [List.mem_singleton.1 hc]
    exact closed_literal env _ _

variable (henv : env.Installed)

include henv

theorem closed_nameCall {callee : Tree} {args : List Tree} (hcallee : env.Closed callee)
    (hargs : ∀ a ∈ args, env.Closed a) (span : Span) (name : String) :
    env.Closed (env.nameCall callee args span name) := by
  have hfactory : env.table.knows (some (env.namedFactory callee.symbol)) := by
    unfold Env.namedFactory
    rw [henv.lib_eq]
    split
    · exact henv.knows (by decide)
    · exact henv.knows (by decide)
  refine Env.closed_iff.2 ⟨rfl, fun c hc => ?_⟩
  rcases List.mem_cons.1 hc with rfl | hc
  · exact Env.closed_iff.2 ⟨hfactory, fun c hc => hcallee.of_mem_children hc⟩
  · rcases List.mem_append.1 hc with hc | hc
    · exact hargs c hc
    · rw [List.mem_singleton.1 hc]
      exact closed_literal env _ _

theorem avoids_nameValueDef (h : env.Closed t) :
    Avoids .missingSymbol env.Closed (nameValueDef env t) := by
  unfold nameValueDef
  split
  next rhs ht =>
    have hrhs := h.of_mem_children (Tree.rhs_mem_children ht)
    split
    next callee args hnode =>
      have hcall := closed_nameCall henv (hrhs.of_mem_children (Tree.callee_mem_children hnode))
        (fun a ha => hrhs.of_mem_children (Tree.arg_mem_children hnode ha)) rhs.span
        (env.valueName t.symbol)
      have hvalue : Avoids .missingSymbol env.Closed (do
          return { t with
            node := .valDef (← retyped env "enumeration value"
              (env.nameCall callee args rhs.span (env.valueName t.symbol)) rhs.ty) }) :=
        (avoids_retyped _ hcall _).bind fun call hcall =>
          Env.closed_iff.2 ⟨h.symbol, fun c hc => (List.mem_singleton.1 hc) ▸ hcall⟩
      split
      next => exact hvalue
      next => exact hvalue
      next => exact Abort.noConfusion
    next => exact Abort.noConfusion
  next => exact Abort.noConfusion

theorem closed_named (h : env.Closed t) : env.Closed (named env t) := by
  unfold named
  split
  next t' ht' => exact (avoids_nameValueDef henv h).of_ok ht'
  next => exact h

/-- The parts of a closed node are closed. -/
theorem closed_of_mem_parts (h : env.Closed t) {c : Tree} (hc : c ∈ parts env t scope) :
    env.Closed c := by
  rcases stages_cases env t scope with
    hkept | ⟨hfind, -⟩ | ⟨hfind, -⟩ | ⟨hfind, callee, args, receiver, name, ht, hcallee⟩
      | ⟨hfind, receiver, name, ht⟩
  · rw [parts_of_kept hkept] at hc
    exact h.of_mem_children hc
  · rw [parts_of_typeToken hfind] at hc
    cases hc
  · rw [parts_of_enumValueDef hfind] at hc
    exact (closed_named henv h).of_mem_children hc
  · rw [parts_of_dynamicApply hfind ht hcallee] at hc
    rcases List.mem_cons.1 hc with rfl | hc
    · exact (h.of_mem_children (Tree.callee_mem_children ht)).of_mem_children
        (Tree.qualifier_mem_children hcallee)
    · exact h.of_mem_children (Tree.arg_mem_children ht hc)
  · rw [parts_of_dynamicSelect hfind ht] at hc
    rw [List.mem_singleton.1 hc]
    exact h.of_mem_children (Tree.qualifier_mem_children ht)

omit henv in
theorem avoids_tokenResult (options : Options) (t : Tree) :
    Avoids .missingSymbol env.Closed (tokenResult env options t) := by
  unfold tokenResult
  split
  next =>
    split
    next => exact Env.closed_of_children_eq_nil rfl rfl
    next => exact avoids_retyped _ (closed_literal env _ _) _
  next => exact Abort.noConfusion
  next => exact Abort.noConfusion

theorem avoids_applyDynamic {callee receiver : Tree} {args : List Tree}
    (hreceiver : env.Closed receiver) (hargs : ∀ a ∈ args, env.Closed a) :
    Avoids .missingSymbol env.Closed (applyDynamic env t callee receiver args) := by
  have hmethod : env.table.knows (some env.lib.applyDynamic) := by
    rw [henv.lib_eq]
    exact henv.knows (by decide)
  refine avoids_retyped _ (Env.closed_iff.2 ⟨rfl, fun c hc => ?_⟩) _
  rcases List.mem_cons.1 hc with rfl | hc
  · exact closed_dynamicCall hreceiver hmethod _ _
  · exact hargs c hc

theorem avoids_selectDynamic {receiver : Tree} (hreceiver : env.Closed receiver) :
    Avoids .missingSymbol env.Closed (selectDynamic env t receiver) := by
  have hmethod : env.table.knows (some env.lib.selectDynamic) := by
    rw [henv.lib_eq]
    exact henv.knows (by decide)
  exact avoids_retyped _ (closed_dynamicCall hreceiver hmethod _ _) _

/-- **Putting a tree together misses no symbol.** -/
theorem avoids_rebuild (options : Options) (h : env.Closed t) {cs : List Tree}
    (hlength : cs.length = (parts env t scope).length) (hcs : ∀ c ∈ cs, env.Closed c) :
    Avoids .missingSymbol env.Closed (rebuild env options t scope cs) := by
  rcases stages_cases env t scope with
    hkept | ⟨hfind, -⟩ | ⟨hfind, -⟩ | ⟨hfind, callee, args, receiver, name, ht, hcallee⟩
      | ⟨hfind, receiver, name, ht⟩
  · rw [rebuild_of_kept hkept]
    rw [parts_of_kept hkept] at hlength
    exact Env.closed_withChildren h.symbol hlength hcs t.ty
  · rw [rebuild_of_typeToken hfind]
    exact avoids_tokenResult options t
  · rw [rebuild_of_enumValueDef hfind]
    rw [parts_of_enumValueDef hfind] at hlength
    exact Env.closed_withChildren (closed_named henv h).symbol hlength hcs (named env t).ty
  · rw [rebuild_of_dynamicApply hfind ht]
    rw [parts_of_dynamicApply hfind ht hcallee] at hlength
    obtain ⟨r, as, rfl⟩ := List.exists_cons_of_length_eq_add_one hlength
    exact avoids_applyDynamic henv (hcs r (.head _)) fun a ha => hcs a (.tail _ ha)
  · rw [rebuild_of_dynamicSelect hfind]
    rw [parts_of_dynamicSelect hfind ht] at hlength
    obtain ⟨r, rfl⟩ := List.length_eq_one_iff.1 hlength
    exact avoids_selectDynamic henv (hcs r (.head _))

end Pass

end Interop
