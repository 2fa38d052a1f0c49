import Interop.Tree.Basic
import Interop.Typing.Conforms
import Interop.Typing.Error

/-!
# Re-typing

The pass builds trees whose nodes have no type yet, around subtrees that have one.  `assign` gives
each node its type from what the table knows, and `retype` also asks that the type of the whole
fits the place where the tree will stand.  Only the kinds of nodes that the pass builds can be
typed: literals, selections, identifiers, applications and blocks.
-/

namespace Interop.Typing

/-- Why typing ends without a tree. -/
inductive Failure where
  | illTyped (cause : TypeError)
  /-- a node names a symbol that is not in the table -/
  | missingSymbol
deriving DecidableEq, Inhabited

variable (env : Env)

/-- The type of a constant. -/
def constantTy : Constant → Ty
  | .unit => .unit
  | .null => .null
  | .bool _ => .bool
  | .int _ => .int
  | .str _ => .str
  | .type _ => .instanceOf (some env.lib.classClass)

/-- The declared type of a symbol. -/
def infoOf (symbol : SymbolRef) : Except Failure Ty :=
  match env.table.get? symbol with
  | some s => .ok s.info
  | none => .error .missingSymbol

/-- The only term called `name` in a class and its ancestors. -/
def resolveMember (owner : SymbolRef) (name : String) : Except Failure SymbolId :=
  match env.table.membersNamed owner name with
  | [member] => .ok member
  | [] => .error (.illTyped (.unresolved name))
  | _ => .error (.illTyped (.ambiguous name))

/-- The type of each of `n` arguments.  A repeated last parameter takes any number of them. -/
def argumentTys? (params : List Ty) (n : Nat) : Option (List Ty) :=
  match params.getLast? with
  | some (.repeated elem) =>
    let fixed := params.dropLast
    if n < fixed.length then none else some (fixed ++ List.replicate (n - fixed.length) elem)
  | _ => if n = params.length then some params else none

/-- What is called, for a reader. -/
def calleeName (callee : Tree) : String :=
  match callee.calleeSymbol with
  | some id => env.table.decodedName (some id)
  | none => callee.node.describe

def checkConforms (found expected : Ty) : Except Failure Unit :=
  if env.conforms found expected then .ok ()
  else .error (.illTyped (.mismatch (env.table.showTy expected) (env.table.showTy found)))

/-- The type of an application whose callee and arguments have theirs.  The callee's type has to
be a method type as it stands; aliases are not looked through. -/
def applyTy (callee : Tree) (args : List Tree) : Except Failure Ty :=
  match callee.ty with
  | .method params result =>
    match argumentTys? params args.length with
    | none => .error (.illTyped (.arity (calleeName env callee) params.length args.length))
    | some tys => do
      (args.zip tys).forM fun (arg, ty) => checkConforms env arg.ty ty
      return result
  | _ => .error (.illTyped (.notMethod (calleeName env callee)))

/-- The symbol and the type of a node whose children have their types.  A selection without a
symbol finds one by name; every other node keeps its symbol. -/
def resolve (t : Tree) : Except Failure (SymbolRef × Ty) :=
  match t.node with
  | .literal value => return (t.symbol, constantTy env value)
  | .select qualifier name => do
    let symbol ← match t.symbol with
      | some id => pure id
      | none => resolveMember env (env.table.typeSymbol qualifier.ty) name
    return (some symbol, ← infoOf env (some symbol))
  | .ident name =>
    match t.symbol with
    | some id => return (some id, ← infoOf env (some id))
    | none => .error (.illTyped (.unresolved name))
  | .apply callee args => return (t.symbol, ← applyTy env callee args)
  | .block _ expr => return (t.symbol, expr.ty)
  | other => .error (.illTyped (.unsupported other.describe))

/-- Type the untyped nodes of a tree, children first.  A subtree that has a type is left alone. -/
def assign (t : Tree) : Except Failure Tree :=
  if t.ty.isTyped then .ok t
  else do
    let t' := { t with node := ← t.node.attach.mapM fun ⟨c, _⟩ => assign c }
    let (symbol, ty) ← resolve env t'
    return { t' with symbol, ty }
termination_by sizeOf t
decreasing_by exact Tree.sizeOf_lt_of_mem_children ‹_›

/-- Type a tree for a place that needs a value of type `expected`. -/
def retype (t : Tree) (expected : Ty) : Except Failure Tree := do
  let t ← assign env t
  checkConforms env t.ty expected
  return t

/-! ## Lemmas -/

theorem bind_eq_ok {ε α β : Type} {x : Except ε α} {f : α → Except ε β} {b : β} :
    x >>= f = .ok b ↔ ∃ a, x = .ok a ∧ f a = .ok b := by
  cases x <;> simp [bind, Except.bind]

theorem assign_of_typed {t : Tree} (h : t.ty.isTyped) : assign env t = .ok t := by
  rw [assign, if_pos h]

theorem assign_of_untyped {t : Tree} (h : ¬ t.ty.isTyped) :
    assign env t = (do
      let t' := { t with node := ← t.node.mapM (assign env) }
      let (symbol, ty) ← resolve env t'
      return { t' with symbol, ty }) := by
  rw [assign, if_neg h, Node.mapM_attach (assign env)]

/-- Typing changes types and symbols only. -/
theorem weight_of_assign_eq_ok {t t' : Tree} (h : assign env t = .ok t') :
    t'.weight = t.weight := by
  by_cases hty : t.ty.isTyped
  · rw [assign_of_typed env hty] at h
    cases h
    rfl
  · rw [assign_of_untyped env hty] at h
    obtain ⟨n, hn, h⟩ := bind_eq_ok.1 h
    obtain ⟨⟨symbol, ty⟩, -, h⟩ := bind_eq_ok.1 h
    cases h
    exact Tree.weight_of_mapM_eq_ok (fun c hc c' h' => weight_of_assign_eq_ok h') hn rfl rfl
termination_by sizeOf t
decreasing_by exact Tree.sizeOf_lt_of_mem_children hc

theorem weight_of_retype_eq_ok {t t' : Tree} {expected : Ty} (h : retype env t expected = .ok t') :
    t'.weight = t.weight := by
  obtain ⟨t₁, h₁, h⟩ := bind_eq_ok.1 h
  obtain ⟨_, -, h⟩ := bind_eq_ok.1 h
  cases h
  exact weight_of_assign_eq_ok env h₁

end Interop.Typing
