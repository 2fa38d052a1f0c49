/-!
# Types and constants

A type mentions classes, objects, aliases and type parameters by their symbol, so it says nothing
by itself about what they are.  A mentioned symbol may be absent.
-/

namespace Interop

/-- The number of a symbol in its table. -/
abbrev SymbolId := Nat

/-- A symbol that may be absent. -/
abbrev SymbolRef := Option SymbolId

/-- A resolved type. -/
inductive Ty where
  /-- none assigned yet -/
  | noType
  /-- stands in for the type of something already reported -/
  | error
  | nothing
  | null
  | unit
  | bool
  | int
  | str
  /-- instances of a class or trait -/
  | instanceOf (symbol : SymbolRef)
  /-- the type of an object -/
  | singleton (symbol : SymbolRef)
  /-- another name for a type, which is the type of the alias's symbol -/
  | aliased (symbol : SymbolRef)
  /-- a type parameter -/
  | param (symbol : SymbolRef)
  /-- any number of arguments of one type -/
  | repeated (elem : Ty)
  | method (params : List Ty) (result : Ty)
deriving Inhabited

namespace Ty

/-! ## Equality -/

mutual

/-- Structural equality, as a test. -/
def same : Ty → Ty → Bool
  | noType, noType | error, error | nothing, nothing | null, null | unit, unit | bool, bool
  | int, int | str, str => true
  | instanceOf a, instanceOf b | singleton a, singleton b | aliased a, aliased b
  | param a, param b => a = b
  | repeated a, repeated b => same a b
  | method ps r, method qs s => sameAll ps qs && same r s
  | _, _ => false

def sameAll : List Ty → List Ty → Bool
  | [], [] => true
  | a :: as, b :: bs => same a b && sameAll as bs
  | _, _ => false

end

mutual

theorem same_refl : ∀ a : Ty, a.same a = true
  | noType | error | nothing | null | unit | bool | int | str => rfl
  | instanceOf _ | singleton _ | aliased _ | param _ => by simp [same]
  | repeated a => same_refl a
  | method ps r => by simp [same, sameAll_refl ps, same_refl r]

theorem sameAll_refl : ∀ as : List Ty, sameAll as as = true
  | [] => rfl
  | a :: as => by simp [sameAll, same_refl a, sameAll_refl as]

end

mutual

theorem eq_of_same : ∀ {a b : Ty}, a.same b = true → a = b
  | noType, b, h | error, b, h | nothing, b, h | null, b, h | unit, b, h | bool, b, h
  | int, b, h | str, b, h => by cases b <;> simp_all [same]
  | instanceOf _, b, h | singleton _, b, h | aliased _, b, h | param _, b, h => by
    cases b <;> simp_all [same]
  | repeated a, b, h => by
    cases b <;> simp only [same, Bool.false_eq_true] at h
    rw [eq_of_same h]
  | method ps r, b, h => by
    cases b <;> simp only [same, Bool.false_eq_true, Bool.and_eq_true] at h
    rw [eq_of_sameAll h.1, eq_of_same h.2]

theorem eq_of_sameAll : ∀ {as bs : List Ty}, sameAll as bs = true → as = bs
  | [], [], _ => rfl
  | [], _ :: _, h | _ :: _, [], h => by simp [sameAll] at h
  | a :: as, b :: bs, h => by
    simp only [sameAll, Bool.and_eq_true] at h
    rw [eq_of_same h.1, eq_of_sameAll h.2]

end

instance : DecidableEq Ty := fun a b =>
  decidable_of_iff (a.same b = true) ⟨eq_of_same, fun h => h ▸ same_refl a⟩

/-! ## Classification -/

/-- A type has been assigned. -/
def isTyped (ty : Ty) : Bool := ty ≠ noType

def isPrimitive : Ty → Bool
  | unit | bool | int | str => true
  | _ => false

@[simp] theorem isTyped_iff {ty : Ty} : ty.isTyped = true ↔ ty ≠ noType := by simp [isTyped]

end Ty

/-- The value of a literal. -/
inductive Constant where
  | unit
  | null
  | bool (value : Bool)
  | int (value : Int)
  | str (value : String)
  /-- a class literal -/
  | type (value : Ty)
deriving DecidableEq, Inhabited

def Constant.isNull (c : Constant) : Bool := c = null

end Interop
