/-!
# Type errors

Why a tree built by the pass has no type, or not the one its place needs.
-/

namespace Interop.Typing

inductive TypeError where
  /-- the type of the tree does not fit its place -/
  | mismatch (expected found : String)
  /-- a method is applied to the wrong number of arguments -/
  | arity (callee : String) (expected found : Nat)
  /-- something that is not a method is applied -/
  | notMethod (callee : String)
  /-- no member has the name -/
  | unresolved (name : String)
  /-- several members have the name -/
  | ambiguous (name : String)
  /-- a kind of tree that the pass never builds -/
  | unsupported (kind : String)
deriving DecidableEq, Inhabited

def TypeError.message : TypeError → String
  | mismatch expected found => s!"found `{found}`, expected `{expected}`"
  | arity callee expected found => s!"`{callee}` takes {expected} argument(s), got {found}"
  | notMethod callee => s!"`{callee}` cannot be applied to arguments"
  | unresolved name => s!"cannot resolve member `{name}`"
  | ambiguous name => s!"ambiguous reference to overloaded member `{name}`"
  | unsupported kind => s!"cannot type a {kind}"

end Interop.Typing
