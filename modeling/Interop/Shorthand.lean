import Interop.Env
import Interop.Name
import Interop.Tree.Basic

/-!
# Shorthands

Two things that source code may write have no meaning at run time, and the pass has to take them
away.  A member `x` of a dynamic value stands for a look-up by name:

    recv.x(args)  for  recv.applyDynamic("x")(args)
    recv.x        for  recv.selectDynamic("x")

and the raw type token `host.Predef.classOf[T]` stands for a class literal.
-/

namespace Interop

/-- The member name that the dynamic shorthand is written with. -/
def shorthandName : String := "x"

/-- `receiver.method("x")`, not typed yet. -/
def dynamicCall (receiver : Tree) (method : String) (symbol : SymbolId) (span : Span) : Tree :=
  let select : Tree := { node := .select receiver method, span, symbol := some symbol }
  { node := .apply select [.literal (.str shorthandName) span], span }

namespace Env

variable (env : Env)

/-- `recv.x` where `recv` is a dynamic value; the spelling of `x` may be encoded. -/
def isDynamicSelect (t : Tree) : Bool :=
  match t.node with
  | .select receiver name =>
    Name.decode name = shorthandName
      && env.table.typeSymbol receiver.ty = some env.lib.jsDynamic
  | _ => false

/-- `recv.x(args)` where `recv` is a dynamic value. -/
def isDynamicApply (t : Tree) : Bool :=
  match t.node with
  | .apply callee _ => env.isDynamicSelect callee
  | _ => false

/-- A type token with one type argument, selected through the host package. -/
def isTypeToken (t : Tree) : Bool :=
  match t.node with
  | .typeApply ⟨.select ⟨.select ⟨.this _, _, _, host⟩ _, _, _, predef⟩ _, _, _, method⟩ [_] =>
    method = some env.lib.classOf && predef = some env.lib.predef
      && host = some env.lib.hostPackage
  | _ => false

end Env

/-! ## What is left over -/

/-- A shorthand in a tree that should have none. -/
inductive Leftover where
  | dynamicSelect (span : Span)
  | typeToken (span : Span)
deriving DecidableEq, Inhabited

def Leftover.message : Leftover → String
  | dynamicSelect span => s!"dynamic shorthand `x` left at {span.text}"
  | typeToken span => s!"raw classOf left at {span.text}"

/-- What is said of a tree with shorthands in it. -/
def Leftover.summary (found : List Leftover) : String :=
  s!"interop preparation left {found.length} shorthand(s):\n"
    ++ "\n".intercalate (found.map message)

/-- The shorthands that a tree holds, a parent before its children. -/
def Env.leftovers (env : Env) (t : Tree) : List Leftover :=
  t.preorder.filterMap fun t =>
    if env.isDynamicSelect t then some (.dynamicSelect t.span)
    else if env.isTypeToken t then some (.typeToken t.span)
    else none

end Interop
