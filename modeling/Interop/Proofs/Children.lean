import Interop.Tree.Basic

/-!
# Nodes with other children

`n.withChildren bs` is the node `n` with the subtrees `bs` in place of its own.  Mapping over a node
is mapping over the list of its children:

    n.mapM f = (do  bs ← n.children.mapM f;  n.withChildren bs)          (mapM_eq_withChildren)

so what is known of lists carries over to nodes of every shape.
-/

namespace Interop

namespace Node

variable {α β : Type}

/-- The node with `bs` for its subtrees, in source order.  Missing ones are made up. -/
def withChildren [Inhabited β] (n : Node α) (bs : List β) : Node β :=
  match n with
  | packageDef _ => packageDef bs
  | classDef _ => classDef (bs.headD default)
  | objectDef _ => objectDef (bs.headD default)
  | template parents _ => template (bs.take parents.length) (bs.drop parents.length)
  | defDef _ _ => defDef bs.dropLast (bs.getLastD default)
  | valDef _ => valDef (bs.headD default)
  | block _ _ => block bs.dropLast (bs.getLastD default)
  | cond _ _ _ => cond (bs.getD 0 default) (bs.getD 1 default) (bs.getD 2 default)
  | select _ name => select (bs.headD default) name
  | apply _ _ => apply (bs.headD default) bs.tail
  | typeApply _ _ => typeApply (bs.headD default) bs.tail
  | ident name => ident name
  | this name => this name
  | literal value => literal value
  | typeTree => typeTree
  | forwarder jsName kind => forwarder jsName kind
  | empty => empty

theorem mapM_bind_congr {γ : Type} {m : Type → Type} [Monad m] [LawfulMonad m] {f : α → m β}
    {as : List α} {k k' : List β → m γ} (h : ∀ bs, bs.length = as.length → k bs = k' bs) :
    (as.mapM f >>= k) = as.mapM f >>= k' := by
  induction as generalizing k k' with
  | nil => simpa using h [] rfl
  | cons a as ih =>
    rw [List.mapM_cons]
    simp only [bind_assoc, pure_bind]
    congr 1
    funext b
    exact ih fun bs hbs => h _ (by simp [hbs])

/-- Mapping over a node is mapping over the list of its children. -/
theorem mapM_eq_withChildren {m : Type → Type} [Monad m] [LawfulMonad m] [Inhabited β]
    (f : α → m β) (n : Node α) :
    n.mapM f = n.children.mapM f >>= fun bs => pure (n.withChildren bs) := by
  cases n with
  | template parents body =>
    simp only [mapM, children, List.mapM_append, bind_assoc, pure_bind, withChildren]
    -- where the parents end is known from their number only
    refine mapM_bind_congr fun ps hps => ?_
    simp [← hps]
  | _ => simp [mapM, children, withChildren, List.mapM_append, List.mapM_cons]

theorem dropLast_append_getLastD [Inhabited β] {bs : List β} (h : 0 < bs.length) :
    bs.dropLast ++ [bs.getLastD default] = bs := by
  have hne : bs ≠ [] := List.length_pos_iff.1 h
  rw [List.getLastD_eq_getLast?, List.getLast?_eq_some_getLast hne, Option.getD_some,
    List.dropLast_concat_getLast hne]

theorem children_withChildren [Inhabited β] {n : Node α} {bs : List β}
    (h : bs.length = n.children.length) : (n.withChildren bs).children = bs := by
  cases n with
  | defDef _ _ | block _ _ =>
    exact dropLast_append_getLastD (by rw [h]; simp [children])
  | template parents body => exact List.take_append_drop _ bs
  | cond _ _ _ =>
    match bs, h with
    | [_, _, _], _ => rfl
  | classDef _ | objectDef _ | valDef _ | select _ _ =>
    obtain ⟨a, rfl⟩ := List.length_eq_one_iff.1 h
    rfl
  | apply _ _ | typeApply _ _ =>
    cases bs with
    | nil => simp [children] at h
    | cons b bs => rfl
  | packageDef _ => rfl
  | _ =>
    rw [List.length_eq_zero_iff.1 h]
    rfl

theorem withChildren_children [Inhabited α] (n : Node α) : n.withChildren n.children = n := by
  cases n <;> simp [withChildren, children]

theorem withChildren_withChildren [Inhabited β] {γ : Type} [Inhabited γ] {n : Node α} {bs : List β}
    (h : bs.length = n.children.length) (cs : List γ) :
    (n.withChildren bs).withChildren cs = n.withChildren cs := by
  cases n with
  | template parents body =>
    have hlength : (bs.take parents.length).length = parents.length := by
      rw [List.length_take, h]
      simp [children]
    simp only [withChildren, hlength]
  | _ => rfl

@[simp] theorem isMemberDef_withChildren [Inhabited β] (n : Node α) (bs : List β) :
    (n.withChildren bs).isMemberDef = n.isMemberDef := by
  cases n <;> rfl

end Node

namespace Tree

/-- The tree with `cs` for its children. -/
def withChildren (t : Tree) (cs : List Tree) : Tree := { t with node := t.node.withChildren cs }

theorem children_withChildren {t : Tree} {cs : List Tree} (h : cs.length = t.children.length) :
    (t.withChildren cs).children = cs :=
  Node.children_withChildren h

/-- Types and symbols count for nothing. -/
theorem children_of_withChildren {t : Tree} {cs : List Tree} (h : cs.length = t.children.length)
    (symbol : SymbolRef) (ty : Ty) : { t.withChildren cs with symbol, ty : Tree }.children = cs :=
  children_withChildren h

@[simp] theorem withChildren_children (t : Tree) : t.withChildren t.children = t := by
  obtain ⟨node, span, ty, symbol⟩ := t
  show { node := node.withChildren node.children, span, ty, symbol : Tree } = _
  rw [Node.withChildren_children]

theorem withChildren_withChildren {t : Tree} {bs : List Tree} (h : bs.length = t.children.length)
    (cs : List Tree) : (t.withChildren bs).withChildren cs = t.withChildren cs := by
  unfold withChildren
  rw [Node.withChildren_withChildren h]

/-! ## Children of a node of a known shape -/

theorem callee_mem_children {t callee : Tree} {args : List Tree}
    (ht : t.node = .apply callee args) : callee ∈ t.children := by
  rw [children, ht]
  exact .head _

theorem arg_mem_children {t callee arg : Tree} {args : List Tree}
    (ht : t.node = .apply callee args) (h : arg ∈ args) : arg ∈ t.children := by
  rw [children, ht]
  exact .tail _ h

theorem qualifier_mem_children {t qualifier : Tree} {name : String}
    (ht : t.node = .select qualifier name) : qualifier ∈ t.children := by
  rw [children, ht]
  exact .head _

theorem rhs_mem_children {t rhs : Tree} (ht : t.node = .valDef rhs) : rhs ∈ t.children := by
  rw [children, ht]
  exact .head _

/-! ## Everything below a tree -/

theorem preorder_eq (t : Tree) : t.preorder = t :: t.children.flatMap preorder := by
  rw [preorder]
  simp

theorem forall_mem_preorder {p : Tree → Prop} {t : Tree} :
    (∀ u ∈ t.preorder, p u) ↔ p t ∧ ∀ c ∈ t.children, ∀ u ∈ c.preorder, p u := by
  rw [t.preorder_eq, List.forall_mem_cons, List.forall_mem_flatMap]

theorem mem_preorder_self (t : Tree) : t ∈ t.preorder := by
  rw [t.preorder_eq]
  exact .head _

theorem preorder_subset_of_mem_children {t c : Tree} (hc : c ∈ t.children) :
    c.preorder ⊆ t.preorder := by
  intro u hu
  rw [t.preorder_eq]
  exact .tail _ (List.mem_flatMap.2 ⟨c, hc, hu⟩)

theorem preorder_subset_of_mem_preorder {t u : Tree} (hu : u ∈ t.preorder) :
    u.preorder ⊆ t.preorder := by
  rw [t.preorder_eq, List.mem_cons] at hu
  rcases hu with rfl | hu
  · exact List.Subset.refl _
  · obtain ⟨c, hc, hu⟩ := List.mem_flatMap.1 hu
    exact List.Subset.trans (preorder_subset_of_mem_preorder hu) (preorder_subset_of_mem_children hc)
termination_by sizeOf t
decreasing_by exact sizeOf_lt_of_mem_children hc

theorem mem_preorder_of_mem_children {t c : Tree} (hc : c ∈ t.children) : c ∈ t.preorder :=
  preorder_subset_of_mem_children hc (mem_preorder_self c)

end Tree

end Interop
