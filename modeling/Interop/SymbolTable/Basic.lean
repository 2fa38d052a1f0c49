import Interop.Symbol

/-!
# The symbol table

A table numbers symbols in the order in which they are declared, starting with the root package,
and keeps for each the list of what is declared in it.  It only ever grows.
-/

namespace Interop

/-- A symbol and what is declared in it, in order. -/
structure SymbolTable.Row where
  symbol : Symbol
  decls : List SymbolId := []
deriving DecidableEq, Inhabited

structure SymbolTable where
  rows : Array SymbolTable.Row
deriving DecidableEq

/-- What is declared. -/
inductive Declared where
  | package
  | classDef (isTrait : Bool) (modifiers : List Modifier) (parents : List Ty)
  | object (modifiers : List Modifier) (parents : List Ty)
  | method (modifiers : List Modifier) (params : List Ty) (result : Ty)
  | value (modifiers : List Modifier) (ty : Ty)
  | typeAlias (target : Ty)
  | typeParam
deriving DecidableEq, Inhabited

/-- What is declared, where, and under which name. -/
structure Declaration where
  owner : SymbolRef
  name : String
  what : Declared
deriving DecidableEq, Inhabited

/-- The symbols of a declaration, of which the first has the number `id`.  An object has two. -/
def Declaration.symbols (d : Declaration) (id : SymbolId) : List Symbol :=
  let s (kind : SymbolKind) : Symbol := { name := d.name, kind, owner := d.owner }
  match d.what with
  | .package => [s .package]
  | .classDef isTrait modifiers parents =>
    [{ s (if isTrait then .traitDef else .classDef) with
        modifiers, parents, info := .instanceOf (some id) }]
  | .object modifiers parents =>
    [{ s .object with modifiers, info := .singleton (some id), objectClass := some (id + 1) },
     { s .objectClass with modifiers, parents, info := .instanceOf (some (id + 1)) }]
  | .method modifiers params result => [{ s .method with modifiers, info := .method params result }]
  | .value modifiers ty => [{ s .value with modifiers, info := ty }]
  | .typeAlias target => [{ s .typeAlias with info := target }]
  | .typeParam => [{ s .typeParam with info := .param (some id) }]

namespace SymbolTable

/-- The root package, always the first symbol. -/
def root : SymbolId := 0

/-- Only the root package is declared. -/
def new : SymbolTable := ⟨#[⟨{ name := "<root>", kind := .package, owner := none }, []⟩]⟩

instance : Inhabited SymbolTable := ⟨new⟩

def size (t : SymbolTable) : Nat := t.rows.size

/-! ## Looking up -/

def get? (t : SymbolTable) (r : SymbolRef) : Option Symbol :=
  r.bind fun id => t.rows[id]?.map (·.symbol)

/-- What is declared in a symbol, in order. -/
def decls (t : SymbolTable) (r : SymbolRef) : List SymbolId :=
  (r.bind fun id => t.rows[id]?).elim [] (·.decls)

def owner (t : SymbolTable) (r : SymbolRef) : SymbolRef := (t.get? r).bind (·.owner)

def kind? (t : SymbolTable) (r : SymbolRef) : Option SymbolKind := (t.get? r).map (·.kind)

/-- The encoded name; a symbol that is not in the table is called `<none>`. -/
def name (t : SymbolTable) (r : SymbolRef) : String := (t.get? r).elim "<none>" (·.name)

/-- The class behind an object. -/
def objectClass (t : SymbolTable) (r : SymbolRef) : SymbolRef := (t.get? r).bind (·.objectClass)

/-- The class whose instances a declaration has: for an object the class behind it, else the
symbol itself. -/
def typeSymbolOf (t : SymbolTable) (r : SymbolRef) : SymbolRef :=
  match t.get? r with
  | none => none
  | some s => if s.kind = .object then s.objectClass else r

/-! ## Declaring -/

/-- Add a symbol, and note it with its owner if that is in the table. -/
def push (t : SymbolTable) (s : Symbol) : SymbolTable :=
  let rows := t.rows.push ⟨s, []⟩
  match s.owner with
  | none => ⟨rows⟩
  | some o => ⟨rows.modify o fun row => { row with decls := row.decls ++ [t.size] }⟩

/-- Declare something.  Its symbols get the next numbers. -/
def enter (t : SymbolTable) (d : Declaration) : SymbolTable :=
  (d.symbols t.size).foldl push t

/-- Declare something and tell its number. -/
def declare (owner : SymbolRef) (name : String) (what : Declared) : StateM SymbolTable SymbolId :=
  modifyGet fun t => (t.size, t.enter ⟨owner, name, what⟩)

end SymbolTable

end Interop
