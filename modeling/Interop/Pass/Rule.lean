import Interop.Enumeration
import Interop.Export
import Interop.JsAny
import Interop.Pass.State
import Interop.Scope

/-!
# Rules

At each node the first rule of a fixed list whose condition holds is applied, and where none does
the node is kept.  A rule may have something to write on entering the node, may open a scope for
what is below it, and may put another tree in its place; what happens to the tree is in
`Interop.Pass.Traversal`.
-/

namespace Interop.Pass

inductive Rule where
  /-- a class extending the marker type, where no other declaration is expected -/
  | jsAnyClass
  /-- a declaration in a body that may have none -/
  | innerDef
  /-- any other declaration extending the marker type -/
  | jsAnyDef
  /-- the enumeration class itself -/
  | enumImpl
  /-- a class extending the enumeration class -/
  | enumClass
  /-- an object extending it -/
  | enumObject
  /-- any other class -/
  | hostClass
  /-- an enumeration value whose name is known -/
  | enumValueDef
  /-- any other factory call without a name -/
  | unnamedCall
  /-- a factory call with null for the name -/
  | nullNamedCall
  | typeToken
  | method
  /-- any other object -/
  | object
  | dynamicApply
  | dynamicSelect
deriving DecidableEq, Inhabited

namespace Rule

/-- The rules in the order in which they are tried. -/
def all : List Rule :=
  [jsAnyClass, innerDef, jsAnyDef, enumImpl, enumClass, enumObject, hostClass, enumValueDef,
   unnamedCall, nullNamedCall, typeToken, method, object, dynamicApply, dynamicSelect]

/-- The condition of a rule. -/
def applies (env : Env) (t : Tree) (scope : Scope) : Rule → Bool
  | jsAnyClass => t.node.isClassDef && scope.jsAnyClassOnly && env.isJsAny t.symbol
  | innerDef => t.node.isImplDef && !scope.allowImplDef
  | jsAnyDef => t.node.isImplDef && env.isJsAny t.symbol
  | enumImpl => t.node.isClassDef && t.symbol = some env.lib.enumeration
  | enumClass => t.node.isClassDef && env.extendsClass t.symbol env.lib.enumeration
  | enumObject => t.node.isObjectDef && env.extendsClass t.symbol env.lib.enumeration
  | hostClass => t.node.isClassDef
  | enumValueDef => scope.inEnumSubclass && env.isUnnamedValueDef t
  | unnamedCall => !scope.inEnumImpl && env.isUnnamedCall t
  | nullNamedCall => !scope.inEnumImpl && env.isNullNamedCall t
  | typeToken => env.isTypeToken t
  | method => t.node.isDefDef
  | object => t.node.isObjectDef
  | dynamicApply => env.isDynamicApply t
  | dynamicSelect => env.isDynamicSelect t

/-- The rule for a node in a scope. -/
def find? (env : Env) (t : Tree) (scope : Scope) : Option Rule :=
  all.find? (applies env t scope)

/-- What the body of a node adds to the scope. -/
def opens (t : Tree) : Rule → Scope
  | jsAnyClass | jsAnyDef =>
    if t.node.isObjectDef then { jsAnyModule := true } else { jsAnyClass := true }
  | enumImpl => { enumImpl := true }
  | enumClass => { hostClass := true, enumSubclass := true }
  | enumObject => { enumSubclass := true }
  | hostClass => { hostClass := true }
  | _ => .root

/-! ## On entering a node -/

/-- Report what is wrong with a declaration that extends the marker type, or mark it. -/
def checkJsAny (env : Env) (decl : Tree) (scope : Scope) : PassM Unit :=
  match env.structuralProblems decl scope with
  | [] =>
    mark (env.table.typeSymbolOf decl.symbol) { symbol := some env.lib.rawJSType, span := decl.span }
  | problems => emit (problems.map (·.diagnostic decl.span))

/-- Keep the forwarders of a method for the body of its owner. -/
def collectExports (env : Env) (method : SymbolRef) : PassM Unit := do
  match env.exportMembers? (← look) method with
  | none => throw .missingSymbol
  | some (forwarders, report) =>
    emit report
    keep (env.table.owner method) forwarders

/-- What is written before the children of a node are visited. -/
def enter (env : Env) (t : Tree) (scope : Scope) : Rule → PassM Unit
  | jsAnyClass | jsAnyDef => checkJsAny env t scope
  | innerDef =>
    emit [.point .error .innerDeclaration t.span
      ("Traits, classes and objects extending js.Any may not have inner traits, " ++
        "classes or objects")]
  | unnamedCall =>
    emit [.point .warning .unnamedValue t.span
      ("Couldn't transform call to Enumeration.Value. The resulting program is unlikely " ++
        "to function properly as this operation requires reflection.")]
  | nullNamedCall =>
    emit [.point .warning .nullValueName t.span
      ("Passing null as name to Enumeration.Value requires reflection at runtime. " ++
        "The resulting program is unlikely to function properly.")]
  | method => collectExports env t.symbol
  | object => do emit (env.objectProblems (← look) t.symbol)
  | _ => pure ()

end Rule

/-! ## On leaving a node -/

/-- A finished body takes up the forwarders that wait for it, and a finished definition is
reported if it is exported but local. -/
def leave (env : Env) (t : Tree) : PassM Tree := do
  match t.node with
  | .template parents body =>
    return { t with node := .template parents (body ++ (← release t.symbol)) }
  | node =>
    if node.isMemberDef then emit (env.localProblems (← look) t.symbol)
    return t

end Interop.Pass
