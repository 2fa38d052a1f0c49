import Interop.Env
import Interop.Name
import Interop.Tree.Basic

/-!
# Enumeration values

A factory call without a name, or with a null name, finds the name by reflection, which the
foreign runtime does not have.  Where the call is all of a value's definition the name is known:

    val v = Value(i)   becomes   val v = Value(i, "v")
-/

namespace Interop.Env

variable (env : Env)

/-- A factory that takes no name. -/
def isUnnamedFactory (symbol : SymbolRef) : Bool :=
  symbol = some env.lib.valueNoArg || symbol = some env.lib.valueInt

/-- A factory whose last parameter is the name. -/
def isNamedFactory (symbol : SymbolRef) : Bool :=
  symbol = some env.lib.valueName || symbol = some env.lib.valueIntName

/-- The factory that takes a name and otherwise what an unnamed one takes. -/
def namedFactory (unnamed : SymbolRef) : SymbolId :=
  if unnamed = some env.lib.valueInt then env.lib.valueIntName else env.lib.valueName

/-- A call of a factory that takes no name. -/
def isUnnamedCall (t : Tree) : Bool :=
  match t.node with
  | .apply _ _ => env.isUnnamedFactory t.calleeSymbol
  | _ => false

/-- A call of a factory that takes a name, with null for it. -/
def isNullNamedCall (t : Tree) : Bool :=
  match t.node with
  | .apply _ args => env.isNamedFactory t.calleeSymbol && args.getLast?.any (·.isNullLiteral)
  | _ => false

/-- A value whose definition is a direct call of a factory that takes no name. -/
def isUnnamedValueDef (t : Tree) : Bool :=
  match t.node with
  | .valDef ⟨.apply ⟨.select _ _, _, _, factory⟩ _, _, _, _⟩
  | .valDef ⟨.apply ⟨.ident _, _, _, factory⟩ _, _, _, _⟩ => env.isUnnamedFactory factory
  | _ => false

/-- The name that the value `symbol` has in the source. -/
def valueName (symbol : SymbolRef) : String :=
  Name.decode (Name.getter (env.table.name symbol))

/-- A factory call with `name` for a further argument, not typed yet. -/
def nameCall (callee : Tree) (args : List Tree) (span : Span) (name : String) : Tree :=
  let factory := { callee with ty := .noType, symbol := some (env.namedFactory callee.symbol) }
  { node := .apply factory (args ++ [.literal (.str name) span]), span }

end Interop.Env
