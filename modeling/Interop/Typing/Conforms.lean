import Interop.Env

/-!
# Conformance

A type conforms to another if its values may stand where values of the other are needed.  Aliases
and object types are looked through on both sides, at the top.
-/

namespace Interop.Env

/-- Conformance of types that are neither aliases nor object types.  Whatever is not typed needs
nothing, and what is wrong already is let pass, so that no mistake is reported twice. -/
def fits (env : Env) (found expected : Ty) : Bool :=
  match found, expected with
  | _, .noType | .error, _ | _, .error | .nothing, _ => true
  | found, expected =>
    found = expected || match found, expected with
      | .null, .str => true
      | found, .instanceOf base =>
        base = some env.lib.anyClass || match found with
          | .null => true
          | .instanceOf sub => env.table.isSubclass sub base
          | .str => base = some env.lib.objectClass
          | _ => false
      | _, _ => false

/-- A value of type `found` may stand where one of type `expected` is needed. -/
def conforms (env : Env) (found expected : Ty) : Bool :=
  env.fits (env.table.underlying found) (env.table.underlying expected)

/-- The type may be the argument of a type token. -/
def isClassType (env : Env) (ty : Ty) : Bool :=
  match env.table.dealias ty with
  | .unit | .bool | .int | .str | .nothing | .null | .instanceOf _ => true
  | _ => false

end Interop.Env
