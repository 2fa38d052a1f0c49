import Interop.Ty

/-!
# Nodes

The shapes of a typed tree, over what stands for its subtrees.  Reading the children of a node and
mapping over them go in source order, and agree:

    (n.mapM f).children  are the results of  f  on  n.children
-/

namespace Interop

/-- How a forwarder shows its method to the foreign runtime. -/
inductive ExportKind where
  | method
  | getter
  | setter
deriving DecidableEq, Inhabited

/-- A node whose subtrees are given as `α`. -/
inductive Node (α : Type) where
  | packageDef (stats : List α)
  /-- a class or trait; its symbol tells which -/
  | classDef (template : α)
  | objectDef (template : α)
  /-- the body of a declaration; its symbol is the class it belongs to -/
  | template (parents body : List α)
  | defDef (params : List α) (rhs : α)
  | valDef (rhs : α)
  | block (stats : List α) (expr : α)
  | cond (test thenBranch elseBranch : α)
  | select (qualifier : α) (name : String)
  | apply (callee : α) (args : List α)
  | typeApply (callee : α) (args : List α)
  | ident (name : String)
  /-- the enclosing class or package of the name -/
  | this (name : String)
  | literal (value : Constant)
  /-- a type written in the source -/
  | typeTree
  /-- a member that shows a method to the foreign runtime -/
  | forwarder (jsName : String) (kind : ExportKind)
  | empty
deriving Inhabited

namespace Node

variable {α β : Type}

/-- What a reader calls the shape. -/
def describe : Node α → String
  | packageDef _ => "package definition"
  | classDef _ => "class definition"
  | objectDef _ => "object definition"
  | template _ _ => "template"
  | defDef _ _ => "method definition"
  | valDef _ => "value definition"
  | block _ _ => "block"
  | cond _ _ _ => "if expression"
  | select _ _ => "selection"
  | apply _ _ => "application"
  | typeApply _ _ => "type application"
  | ident _ => "identifier"
  | this _ => "this reference"
  | literal _ => "literal"
  | typeTree => "type tree"
  | forwarder _ _ => "export forwarder"
  | empty => "empty tree"

/-- The subtrees, in source order. -/
def children : Node α → List α
  | packageDef stats => stats
  | classDef body | objectDef body => [body]
  | template parents body => parents ++ body
  | defDef params rhs => params ++ [rhs]
  | valDef rhs => [rhs]
  | block stats expr => stats ++ [expr]
  | cond test thenBranch elseBranch => [test, thenBranch, elseBranch]
  | select qualifier _ => [qualifier]
  | apply callee args | typeApply callee args => callee :: args
  | ident _ | this _ | literal _ | typeTree | forwarder _ _ | empty => []

/-- Rebuild the node from what `f` makes of its subtrees, visited in source order. -/
def mapM {m : Type → Type} [Monad m] (f : α → m β) : Node α → m (Node β)
  | packageDef stats => return packageDef (← stats.mapM f)
  | classDef body => return classDef (← f body)
  | objectDef body => return objectDef (← f body)
  | template parents body => return template (← parents.mapM f) (← body.mapM f)
  | defDef params rhs => return defDef (← params.mapM f) (← f rhs)
  | valDef rhs => return valDef (← f rhs)
  | block stats expr => return block (← stats.mapM f) (← f expr)
  | cond test thenBranch elseBranch => return cond (← f test) (← f thenBranch) (← f elseBranch)
  | select qualifier name => return select (← f qualifier) name
  | apply callee args => return apply (← f callee) (← args.mapM f)
  | typeApply callee args => return typeApply (← f callee) (← args.mapM f)
  | ident name => return ident name
  | this name => return this name
  | literal value => return literal value
  | typeTree => return typeTree
  | forwarder jsName kind => return forwarder jsName kind
  | empty => return empty

/-- The node with its subtrees known to have a property. -/
def attachWith (n : Node α) (P : α → Prop) (h : ∀ a ∈ n.children, P a) : Node { a // P a } :=
  match n with
  | packageDef stats => packageDef (stats.attachWith P fun a m => h a (by simp [children, m]))
  | classDef body => classDef ⟨body, h _ (by simp [children])⟩
  | objectDef body => objectDef ⟨body, h _ (by simp [children])⟩
  | template parents body =>
    template (parents.attachWith P fun a m => h a (by simp [children, m]))
      (body.attachWith P fun a m => h a (by simp [children, m]))
  | defDef params rhs =>
    defDef (params.attachWith P fun a m => h a (by simp [children, m]))
      ⟨rhs, h _ (by simp [children])⟩
  | valDef rhs => valDef ⟨rhs, h _ (by simp [children])⟩
  | block stats expr =>
    block (stats.attachWith P fun a m => h a (by simp [children, m]))
      ⟨expr, h _ (by simp [children])⟩
  | cond test thenBranch elseBranch =>
    cond ⟨test, h _ (by simp [children])⟩ ⟨thenBranch, h _ (by simp [children])⟩
      ⟨elseBranch, h _ (by simp [children])⟩
  | select qualifier name => select ⟨qualifier, h _ (by simp [children])⟩ name
  | apply callee args =>
    apply ⟨callee, h _ (by simp [children])⟩
      (args.attachWith P fun a m => h a (by simp [children, m]))
  | typeApply callee args =>
    typeApply ⟨callee, h _ (by simp [children])⟩
      (args.attachWith P fun a m => h a (by simp [children, m]))
  | ident name => ident name
  | this name => this name
  | literal value => literal value
  | typeTree => typeTree
  | forwarder jsName kind => forwarder jsName kind
  | empty => empty

/-- The node with each subtree known to be one of its children. -/
def attach (n : Node α) : Node { a // a ∈ n.children } := n.attachWith _ fun _ h => h

/-- The body of a class, trait or object. -/
def isImplDef : Node α → Bool
  | classDef _ | objectDef _ => true
  | _ => false

/-- Declares a member with a name. -/
def isMemberDef : Node α → Bool
  | classDef _ | objectDef _ | defDef _ _ | valDef _ => true
  | _ => false

def isClassDef : Node α → Bool
  | classDef _ => true
  | _ => false

def isObjectDef : Node α → Bool
  | objectDef _ => true
  | _ => false

def isDefDef : Node α → Bool
  | defDef _ _ => true
  | _ => false

def isEmpty : Node α → Bool
  | empty => true
  | _ => false

/-! ## Lemmas -/

theorem list_mapM_attachWith {m : Type → Type} [Monad m] [LawfulMonad m] {P : α → Prop}
    (f : α → m β) : ∀ (as : List α) (h : ∀ a ∈ as, P a),
      (as.attachWith P h).mapM (fun a => f a.1) = as.mapM f
  | [], _ => rfl
  | a :: as, h => by
    simp only [List.attachWith_cons, List.mapM_cons]
    rw [list_mapM_attachWith f as]

theorem mapM_attachWith {m : Type → Type} [Monad m] [LawfulMonad m] {P : α → Prop}
    (f : α → m β) (n : Node α) (h : ∀ a ∈ n.children, P a) :
    (n.attachWith P h).mapM (fun a => f a.1) = n.mapM f := by
  cases n <;> simp only [attachWith, mapM, list_mapM_attachWith]

/-- Forgetting that the subtrees are children changes nothing. -/
theorem mapM_attach {m : Type → Type} [Monad m] [LawfulMonad m] (f : α → m β) (n : Node α) :
    n.attach.mapM (fun a => f a.1) = n.mapM f :=
  mapM_attachWith f n _

/-- Mapping visits exactly the children, in order. -/
theorem map_children_mapM {m : Type → Type} [Monad m] [LawfulMonad m] (f : α → m β) (n : Node α) :
    children <$> n.mapM f = n.children.mapM f := by
  cases n <;> simp [mapM, children, List.mapM_append, List.mapM_cons]

theorem sizeOf_lt_of_mem_children [SizeOf α] {n : Node α} {a : α} (h : a ∈ n.children) :
    sizeOf a < sizeOf n := by
  cases n <;> simp only [children, List.mem_append, List.mem_cons, List.not_mem_nil, or_false] at h
  all_goals
    simp only [packageDef.sizeOf_spec, classDef.sizeOf_spec, objectDef.sizeOf_spec,
      template.sizeOf_spec, defDef.sizeOf_spec, valDef.sizeOf_spec, block.sizeOf_spec,
      cond.sizeOf_spec, select.sizeOf_spec, apply.sizeOf_spec, typeApply.sizeOf_spec]
  case packageDef => have := List.sizeOf_lt_of_mem h; omega
  case cond => rcases h with rfl | rfl | rfl <;> omega
  case template =>
    rcases h with h | h <;> have := List.sizeOf_lt_of_mem h <;> omega
  case defDef | block | apply | typeApply =>
    rcases h with h | h
    all_goals first
      | subst h; omega
      | have := List.sizeOf_lt_of_mem h; omega
  all_goals subst h; omega

end Node

end Interop
