import Interop.Library
import Interop.SymbolTable.Ancestors
import Interop.SymbolTable.Owner

/-!
# Environments

What the pass reads and never changes: the symbols of a compilation and which of them are
well-known.
-/

namespace Interop

structure Env where
  table : SymbolTable
  lib : Library

namespace Env

/-- The class whose instances the declaration has is `base` or descends from it. -/
def extendsClass (env : Env) (symbol : SymbolRef) (base : SymbolId) : Bool :=
  env.table.isSubclass (env.table.typeSymbolOf symbol) (some base)

/-- The declaration extends the interop marker type. -/
def isJsAny (env : Env) (symbol : SymbolRef) : Bool := env.extendsClass symbol env.lib.jsAny

end Env

end Interop
