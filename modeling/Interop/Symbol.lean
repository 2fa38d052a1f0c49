import Interop.Span
import Interop.Ty

/-!
# Symbols

A symbol is a resolved declaration.  An object has two: one for the value and one for the class
behind it.
-/

namespace Interop

/-- What kind of declaration a symbol stands for. -/
inductive SymbolKind where
  | package
  | classDef
  | traitDef
  | object
  /-- the class behind an object -/
  | objectClass
  | method
  | value
  | typeAlias
  | typeParam
deriving DecidableEq, Inhabited

namespace SymbolKind

/-- Named by expressions. -/
def isTerm : SymbolKind → Bool
  | object | method | value => true
  | _ => false

/-- Has a body of its own. -/
def isClass : SymbolKind → Bool
  | classDef | traitDef | objectClass => true
  | _ => false

end SymbolKind

/-- What is written before a declaration, or found out about it earlier. -/
inductive Modifier where
  | caseMod
  | anonymous
  /-- declared in a block -/
  | localMod
  | synthetic
  | privateMod
  | protectedMod
  | abstractMod
  | constructor
  | primaryConstructor
  | accessor
  /-- a factory or extractor made for a case class -/
  | caseApply
  | macroMod
deriving DecidableEq, Inhabited

/-- A declaration. -/
structure Symbol where
  name : String
  kind : SymbolKind
  owner : SymbolRef
  modifiers : List Modifier := []
  /-- declared supertypes, in order -/
  parents : List Ty := []
  /-- the declared type: a method type for methods, the instance type for classes -/
  info : Ty := .noType
  /-- the class behind an object -/
  objectClass : SymbolRef := none
deriving DecidableEq, Inhabited

namespace Symbol

def has (s : Symbol) (m : Modifier) : Bool := m ∈ s.modifiers

def isLocal (s : Symbol) : Bool := s.has .localMod

def isAnonymous (s : Symbol) : Bool := s.has .anonymous

def isCase (s : Symbol) : Bool := s.has .caseMod

def isConstructor (s : Symbol) : Bool := s.has .constructor

/-- Public or protected. -/
def isExportable (s : Symbol) : Bool := !s.has .privateMod

end Symbol

/-- A mark on a declaration: an annotation class applied to constants. -/
structure Annotation where
  symbol : SymbolRef
  args : List Constant := []
  span : Span := {}
deriving DecidableEq, Inhabited

end Interop
