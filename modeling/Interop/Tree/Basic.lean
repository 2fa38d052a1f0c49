import Interop.Span
import Interop.Tree.Node

/-!
# Typed trees

A tree is a node whose subtrees are trees, with its place in the source, its type and, where it
declares or names something, its symbol.  The pass goes down a tree by `weight`, which is smaller
for every child.
-/

namespace Interop

/-- A typed tree. -/
structure Tree where
  node : Node Tree
  span : Span := {}
  ty : Ty := .noType
  symbol : SymbolRef := none

namespace Tree

/-- The placeholder for a tree that was taken out. -/
def placeholder (span : Span) : Tree := { node := .empty, span }

instance : Inhabited Tree := ⟨placeholder {}⟩

/-- A literal that has no type yet. -/
def literal (value : Constant) (span : Span) : Tree := { node := .literal value, span }

def isNullLiteral (t : Tree) : Bool :=
  match t.node with
  | .literal value => value.isNull
  | _ => false

/-- The immediate subtrees, in source order. -/
def children (t : Tree) : List Tree := t.node.children

/-- The symbol of what is called, looking through nested applications. -/
def calleeSymbol : Tree → SymbolRef
  | ⟨.apply callee _, _, _, _⟩ | ⟨.typeApply callee _, _, _, _⟩ => callee.calleeSymbol
  | ⟨_, _, _, symbol⟩ => symbol

/-- Rebuild a tree from what `f` makes of its children, visited in source order.  Place, type and
symbol are kept. -/
def mapChildrenM {m : Type → Type} [Monad m] (f : Tree → m Tree) (t : Tree) : m Tree :=
  return { t with node := ← t.node.mapM f }

/-! ## Going down a tree -/

theorem sizeOf_lt_of_mem_children {t c : Tree} (h : c ∈ t.children) : sizeOf c < sizeOf t := by
  obtain ⟨node, span, ty, symbol⟩ := t
  have : sizeOf c < sizeOf node := Node.sizeOf_lt_of_mem_children h
  rw [mk.sizeOf_spec]
  omega

/-- The tree and all below it, a parent before its children. -/
def preorder (t : Tree) : List Tree :=
  t :: t.children.attach.flatMap fun ⟨c, _⟩ => c.preorder
termination_by sizeOf t
decreasing_by exact sizeOf_lt_of_mem_children ‹_›

/-- What a node adds to the weight: two for a value definition, else one. -/
def ownWeight {α : Type} : Node α → Nat
  | .valDef _ => 2
  | _ => 1

/-- The total of `f` over a list. -/
def total {α : Type} (f : α → Nat) (as : List α) : Nat := as.foldr (fun a n => f a + n) 0

/-- How many nodes there are, with value definitions counted twice. -/
def weight (t : Tree) : Nat :=
  ownWeight t.node + total (fun c => c.1.weight) t.children.attach
termination_by sizeOf t
decreasing_by exact sizeOf_lt_of_mem_children c.2

@[simp] theorem total_nil {α : Type} (f : α → Nat) : total f [] = 0 := rfl

@[simp] theorem total_cons {α : Type} (f : α → Nat) (a : α) (as : List α) :
    total f (a :: as) = f a + total f as := rfl

@[simp] theorem total_append {α : Type} (f : α → Nat) (as bs : List α) :
    total f (as ++ bs) = total f as + total f bs := by
  induction as with
  | nil => simp
  | cons a as ih => simp only [List.cons_append, total_cons, ih]; omega

theorem le_total_of_mem {α : Type} {f : α → Nat} {a : α} {as : List α} (h : a ∈ as) :
    f a ≤ total f as := by
  induction as with
  | nil => cases h
  | cons b as ih =>
    rw [total_cons]
    rcases List.mem_cons.1 h with rfl | h
    · omega
    · exact Nat.le_trans (ih h) (by omega)

theorem weight_eq (t : Tree) : t.weight = ownWeight t.node + total weight t.children := by
  rw [weight]
  exact congrArg _ (List.foldr_attach (f := fun c n => weight c + n))

theorem weight_lt_of_mem_children {t c : Tree} (h : c ∈ t.children) : c.weight < t.weight := by
  rw [t.weight_eq]
  have hle := le_total_of_mem (f := weight) h
  have hpos : 0 < ownWeight t.node := by cases t.node <;> simp [ownWeight]
  omega

/-! ## Weight of a rebuilt tree -/

theorem ownWeight_mapM {α β : Type} {m : Type → Type} [Monad m] [LawfulMonad m] (f : α → m β)
    (n : Node α) : ownWeight <$> n.mapM f = (fun _ => ownWeight n) <$> n.mapM f := by
  cases n <;> simp [Node.mapM, ownWeight]

theorem total_of_mapM_eq_ok {α β ε : Type} {f : α → Except ε β} {v : α → Nat} {w : β → Nat}
    {as : List α} {bs : List β} (hf : ∀ a ∈ as, ∀ b, f a = .ok b → w b = v a)
    (h : as.mapM f = .ok bs) : total w bs = total v as := by
  induction as generalizing bs with
  | nil =>
    simp only [List.mapM_nil, pure, Except.pure, Except.ok.injEq] at h
    subst h
    rfl
  | cons a as ih =>
    rw [List.mapM_cons] at h
    cases ha : f a with
    | error e => simp [ha, bind, Except.bind] at h
    | ok b =>
      cases has : as.mapM f with
      | error e => simp [ha, has, bind, Except.bind] at h
      | ok bs' =>
        simp only [ha, has, bind, Except.bind, pure, Except.pure, Except.ok.injEq] at h
        subst h
        simp [hf a (.head _) b ha, ih (fun a' h' => hf a' (.tail _ h')) has]

/-- A node rebuilt from subtrees of the same weights weighs the same. -/
theorem weight_of_mapM_eq_ok {ε : Type} {f : Tree → Except ε Tree} {n n' : Node Tree}
    (hf : ∀ c ∈ n.children, ∀ c', f c = .ok c' → c'.weight = c.weight)
    (h : n.mapM f = .ok n') {t t' : Tree} (ht : t.node = n) (ht' : t'.node = n') :
    t'.weight = t.weight := by
  have hown := ownWeight_mapM f n
  have hchildren := n.map_children_mapM f
  simp only [h, Functor.map, Except.map, Except.ok.injEq] at hown
  rw [h] at hchildren
  rw [weight_eq, weight_eq, children, children, ht, ht', hown,
    total_of_mapM_eq_ok hf hchildren.symm]

end Tree

end Interop
