/-!
# Codes

Every report carries a code, written as a letter and four digits: `E` for errors, `W` for
warnings.  The first two digits after `E7` name the group: `0` the structure of declarations, `1`
raw type tokens, `2` exports; `E9` is for defects of the pass itself.
-/

namespace Interop.Diagnostic

/-- What a report is about. -/
inductive Code where
  /-- a parent does not extend the interop marker type -/
  | foreignParent
  /-- an anonymous class extends the marker type -/
  | anonymousClass
  /-- a case class or object extends the marker type -/
  | caseModifier
  /-- a declaration extending the marker type stands inside a class or trait -/
  | insideClass
  /-- a declaration other than the global scope object extends the global scope type -/
  | globalScope
  /-- a declaration inside the body of one that extends the marker type -/
  | innerDeclaration
  /-- the argument of a type token is not a class type -/
  | tokenArgument
  /-- a type token reached the pass unresolved -/
  | unresolvedToken
  /-- a local definition is exported -/
  | exportedLocal
  /-- a private method, class or object is exported -/
  | exportedPrivate
  /-- a local class is exported -/
  | exportedLocalClass
  /-- a nested class or object is exported -/
  | exportedNested
  /-- an exported name has two underscores in a row -/
  | exportedUnderscores
  /-- a macro is exported -/
  | exportedMacro
  /-- an abstract class is exported -/
  | exportedAbstract
  /-- a member of a class extending the marker type is exported -/
  | exportedMember
  /-- the pass itself is broken, or was handed a broken tree -/
  | internal
  /-- an enumeration value without a name -/
  | unnamedValue
  /-- an enumeration value whose name is null -/
  | nullValueName
deriving DecidableEq, Inhabited

namespace Code

/-- Every code, in the order in which they are listed. -/
def all : List Code :=
  [foreignParent, anonymousClass, caseModifier, insideClass, globalScope, innerDeclaration,
   tokenArgument, unresolvedToken,
   exportedLocal, exportedPrivate, exportedLocalClass, exportedNested, exportedUnderscores,
   exportedMacro, exportedAbstract, exportedMember,
   internal, unnamedValue, nullValueName]

def text : Code → String
  | foreignParent => "E7001"
  | anonymousClass => "E7002"
  | caseModifier => "E7003"
  | insideClass => "E7004"
  | globalScope => "E7006"
  | innerDeclaration => "E7007"
  | tokenArgument => "E7010"
  | unresolvedToken => "E7011"
  | exportedLocal => "E7020"
  | exportedPrivate => "E7021"
  | exportedLocalClass => "E7022"
  | exportedNested => "E7023"
  | exportedUnderscores => "E7024"
  | exportedMacro => "E7025"
  | exportedAbstract => "E7026"
  | exportedMember => "E7027"
  | internal => "E9001"
  | unnamedValue => "W7001"
  | nullValueName => "W7002"

/-- The code that a text names, in either case.  Folding ASCII letters is enough: no other
character has `E`, `W` or a digit for its capital. -/
def parse? (s : String) : Option Code := all.find? (·.text = s.toUpper)

/-- About the structure of declarations that extend the marker type. -/
def isStructure : Code → Bool
  | foreignParent | anonymousClass | caseModifier | insideClass | globalScope
  | innerDeclaration => true
  | _ => false

/-- About a raw type token. -/
def isTypeToken : Code → Bool
  | tokenArgument | unresolvedToken => true
  | _ => false

/-- About an export. -/
def isExport : Code → Bool
  | exportedLocal | exportedPrivate | exportedLocalClass | exportedNested
  | exportedUnderscores | exportedMacro | exportedAbstract | exportedMember => true
  | _ => false

def isInternal (c : Code) : Bool := c = internal

def isWarning : Code → Bool
  | unnamedValue | nullValueName => true
  | _ => false

theorem mem_all (c : Code) : c ∈ all := by cases c <;> decide

end Code

end Interop.Diagnostic
