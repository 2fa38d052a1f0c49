import Interop.Diagnostic.Basic
import Interop.Env
import Interop.Scope
import Interop.Text.Dotted
import Interop.Tree.Basic

/-!
# Declarations that extend the marker type

A class, trait or object that extends `js.Any` describes something of the foreign runtime, which
restricts its parents, its modifiers and its place.  The checks do not depend on each other, so
one declaration may have several problems.
-/

namespace Interop.Env

variable (env : Env)

/-- An anonymous class made for a function that the foreign runtime calls. -/
def isLambdaAdapter (c : SymbolRef) : Bool :=
  (env.table.get? c).any (·.isAnonymous) && env.table.isSubclass c (some env.lib.jsFunction)

/-- The first parent that does not extend the marker type, with the class that extends it.  The
interop library's own declarations, and lambda adapters, may have any parents. -/
def foreignParent? (c : SymbolRef) (s : Symbol) : Option SymbolRef :=
  if env.isLambdaAdapter c || env.lib.isInteropPackage (env.table.enclosingPackage c) then none
  else (s.parents.map env.table.typeSymbol).find? fun p =>
    !env.table.isSubclass p (some env.lib.jsAny)

/-- The declaration stands where none that extends the marker type may. -/
def isMisplaced (c : SymbolRef) (isObject : Bool) (scope : Scope) : Bool :=
  if isObject then !scope.allowJsAny
  else !scope.allowJsAny && !scope.jsAnyClassOnly && !env.isLambdaAdapter c

/-- The class extends the global scope type, but is not the one that may. -/
def claimsGlobalScope (c : SymbolRef) : Bool :=
  env.table.isSubclass c (some env.lib.jsGlobalScope)
    && c ≠ some env.lib.jsGlobalScope
    && c ≠ env.table.objectClass (some env.lib.jsGlobal)

/-- What is wrong with a declaration that extends the marker type, in the order of the checks. -/
def structuralProblems (decl : Tree) (scope : Scope) : List Diagnostic.Problem :=
  let c := env.table.typeSymbolOf decl.symbol
  match env.table.get? c with
  | none => []
  | some s =>
    let parents := (env.foreignParent? c s).toList.map fun parent : SymbolRef =>
      let (own, other) :=
        Text.Dotted.distinguish (env.table.fullName c) (env.table.fullName parent)
      ⟨.foreignParent, s!"{own} extends {other} which does not extend js.Any."⟩
    let check (fails : Bool) (code : Diagnostic.Code) (message : String) : List Diagnostic.Problem :=
      if fails then [⟨code, message⟩] else []
    parents
      ++ check (s.isAnonymous && !env.isLambdaAdapter c) .anonymousClass
        "Anonymous classes may not extend js.Any"
      ++ check s.isCase .caseModifier
        "Classes and objects extending js.Any may not have a case modifier"
      ++ check (env.isMisplaced c decl.node.isObjectDef scope) .insideClass
        "Classes and objects extending js.Any may not be defined inside a class or trait"
      ++ check (env.claimsGlobalScope c) .globalScope
        "Only the global scope object may extend js.GlobalScope"

end Interop.Env
