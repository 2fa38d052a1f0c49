import Interop.SymbolTable.Basic

/-!
# Owners

A symbol is declared in its owner, and the owner in its own, up to the root package.  An owner may
have any number, also one that is given only later.  The walks below follow as many owners as there
are symbols, which is every chain of owners that ends; owners that go round in a circle have no
outermost one, and a walk that follows them stops at that number.
-/

namespace Interop.SymbolTable

/-- Names from the outermost owner below the root to the symbol itself, of at most `n` symbols. -/
def pathWithin (t : SymbolTable) : Nat → SymbolRef → List String
  | 0, _ => []
  | n + 1, r =>
    if r = some root then []
    else match t.get? r with
      | none => []
      | some s => t.pathWithin n s.owner ++ [s.name]

/-- The dotted name, without the root package. -/
def fullName (t : SymbolTable) (r : SymbolRef) : String :=
  ".".intercalate (t.pathWithin t.size r)

/-- The first package among a symbol and its owners, of which `n` are looked at. -/
def packageWithin (t : SymbolTable) : Nat → SymbolRef → SymbolRef
  | 0, _ => none
  | n + 1, r => match t.get? r with
    | none => none
    | some s => if s.kind = .package then r else t.packageWithin n s.owner

/-- The innermost package around a symbol, which is the symbol itself for a package. -/
def enclosingPackage (t : SymbolTable) (r : SymbolRef) : SymbolRef := t.packageWithin t.size r

/-- Only objects lie between a symbol and a package, which is one of its first `n` owners. -/
def isStaticWithin (t : SymbolTable) : Nat → SymbolRef → Bool
  | 0, _ => false
  | n + 1, r => match t.kind? (t.owner r) with
    | some .package => true
    | some .objectClass => t.isStaticWithin n (t.owner r)
    | _ => false

/-- Reached through packages and objects only. -/
def isStatic (t : SymbolTable) (r : SymbolRef) : Bool := t.isStaticWithin t.size r

end Interop.SymbolTable
