import Interop.Name
import Interop.SymbolTable.Basic

/-!
# Types against a table

What aliases and object types stand for, and how a type is shown to a reader.
-/

namespace Interop.SymbolTable

/-! ## Names -/

/-- The source spelling of a symbol's name. -/
def decodedName (t : SymbolTable) (r : SymbolRef) : String := Name.decode (t.name r)

/-! ## What a type stands for -/

/-- Follow at most `n` aliases.  A chain that is longer, or leads out of the table, is an
error. -/
def dealiasWithin (t : SymbolTable) : Nat → Ty → Ty
  | 0, _ => .error
  | n + 1, .aliased a => t.dealiasWithin n ((t.get? a).elim .error (·.info))
  | _ + 1, ty => ty

/-- How many aliases are looked through before a chain is taken for a cycle. -/
def aliasLimit : Nat := 64

/-- The type behind a chain of aliases. -/
def dealias (t : SymbolTable) (ty : Ty) : Ty := t.dealiasWithin aliasLimit ty

/-- The type of an object, taken as the instance type of the class behind it. -/
def widen (t : SymbolTable) : Ty → Ty
  | .singleton r => .instanceOf (t.objectClass r)
  | ty => ty

/-- A type with aliases and objects looked through. -/
def underlying (t : SymbolTable) (ty : Ty) : Ty := t.widen (t.dealias ty)

/-- The class that the values of a type are instances of. -/
def typeSymbol (t : SymbolTable) (ty : Ty) : SymbolRef :=
  match t.underlying ty with
  | .instanceOf r => r
  | _ => none

/-! ## Text -/

mutual

/-- A type as reports show it. -/
def showTy (t : SymbolTable) : Ty → String
  | .noType => "<notype>"
  | .error => "<error>"
  | .nothing => "Nothing"
  | .null => "Null"
  | .unit => "Unit"
  | .bool => "Boolean"
  | .int => "Int"
  | .str => "String"
  | .instanceOf r | .aliased r | .param r => t.decodedName r
  | .singleton r => t.decodedName r ++ ".type"
  | .repeated elem => t.showTy elem ++ "*"
  | .method params result => "(" ++ ", ".intercalate (t.showTys params) ++ ")" ++ t.showTy result

def showTys (t : SymbolTable) : List Ty → List String
  | [] => []
  | ty :: tys => t.showTy ty :: t.showTys tys

end

theorem showTys_eq_map (t : SymbolTable) (tys : List Ty) : t.showTys tys = tys.map t.showTy := by
  induction tys with
  | nil => rfl
  | cons ty tys ih => simp [showTys, ih]

end Interop.SymbolTable
