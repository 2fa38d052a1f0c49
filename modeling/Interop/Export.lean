import Interop.Annotations
import Interop.Diagnostic.Report
import Interop.Env
import Interop.Tree.Basic

/-!
# Exports

An export annotation asks that a definition be shown to the foreign runtime, under the name it
gives or else under the source name.  A method is shown by a forwarder, which is a member of the
class that owns the method; there is one for each of its export annotations, unless it may not be
exported.
-/

namespace Interop

/-- A wish to export a definition. -/
structure Export where
  /-- the name that the foreign runtime sees -/
  jsName : String
  span : Span
deriving DecidableEq, Inhabited

/-- Two underscores in a row. -/
def hasDoubleUnderscore : List Char → Bool
  | '_' :: '_' :: _ => true
  | _ :: cs => hasDoubleUnderscore cs
  | [] => false

/-- How a method is shown. -/
def Symbol.exportKind (s : Symbol) : ExportKind :=
  if !s.has .accessor then .method
  else if (Name.setterBase? s.name).isSome then .setter
  else .getter

namespace Env

open Diagnostic (Problem)

variable (env : Env)

/-- The name for an export that gives none: the source name without the marks of fields and
setters.  A constructor goes by the name of its class. -/
def defaultJsName (symbol : SymbolRef) : String :=
  let isConstructor := (env.table.get? symbol).any (·.isConstructor)
  let named := if isConstructor then env.table.owner symbol else symbol
  let name := Name.getter (env.table.name named)
  Name.decode ((Name.setterBase? name).getD name)

/-- What an annotation asks for, if it is an export annotation. -/
def exportOf? (symbol : SymbolRef) (x : Annotation) : Option Export :=
  if x.symbol = some env.lib.jsExport then
    match x.args with
    | .str name :: _ => some ⟨name, x.span⟩
    | _ => some ⟨env.defaultJsName symbol, x.span⟩
  else none

/-- The exports asked for by the annotations of a symbol, in order. -/
def exportsOf (annotations : Annotations) (symbol : SymbolRef) : List Export :=
  (annotations.of symbol).filterMap (env.exportOf? symbol)

/-- Why a method may not be exported at all. -/
def methodProblem? (s : Symbol) : Option Problem :=
  let member := if s.isConstructor then "constructor" else "method"
  if env.isJsAny s.owner then
    some ⟨.exportedMember, s!"You may not export a {member} of a subclass of js.Any"⟩
  else if !s.isExportable then
    some ⟨.exportedPrivate, s!"You may only export public and protected {member}s"⟩
  else if s.has .macroMod then
    some ⟨.exportedMacro, "You may not export a macro"⟩
  else none

/-- Why a class may not be exported. -/
def classProblem? (c : Symbol) : Option Problem :=
  if !c.isExportable then
    some ⟨.exportedPrivate, "You may only export public and protected classes"⟩
  else if c.isLocal then
    some ⟨.exportedLocalClass, "You may not export a local class"⟩
  else if env.table.kind? c.owner ≠ some .package then
    some ⟨.exportedNested, "You may not export a nested class"⟩
  else if c.has .abstractMod || c.kind = .traitDef then
    some ⟨.exportedAbstract, "You may not export an abstract class"⟩
  else none

/-- Why an object may not be exported.  Local objects are reported with the other locals. -/
def objectProblem? (o : Symbol) : Option Problem :=
  if o.isLocal then none
  else if !o.isExportable then
    some ⟨.exportedPrivate, "You may only export public and protected objects"⟩
  else if env.table.kind? o.owner ≠ some .package then
    some ⟨.exportedNested, "You may not export a nested object"⟩
  else none

/-- What one export of the method `s` comes to: a forwarder or a report.  To export a constructor
is to export its class, which code generation does; there is only something to check.  No answer
if that class is not in the table. -/
def exportMember? (method : SymbolRef) (s : Symbol) (e : Export) : Option (List Tree × Report) :=
  if hasDoubleUnderscore e.jsName.toList then
    let problem : Problem :=
      ⟨.exportedUnderscores, "An exported name may not contain a double underscore (`__`)"⟩
    some ([], [problem.diagnostic e.span])
  else if s.isConstructor then do
    let c ← env.table.get? s.owner
    return ([], (env.classProblem? c).toList.map (·.diagnostic e.span))
  else
    some ([{ node := .forwarder e.jsName s.exportKind
             span := e.span, ty := s.info, symbol := method }], [])

/-- The forwarders for a method, and what is wrong with its exports.  A local method has no
forwarders; it is reported where its definition ends. -/
def exportMembers? (annotations : Annotations) (method : SymbolRef) :
    Option (List Tree × Report) :=
  match env.table.get? method, env.exportsOf annotations method with
  | some s, first :: rest =>
    if s.isLocal then some ([], [])
    else match env.methodProblem? s with
      | some problem => some ([], [problem.diagnostic first.span])
      | none => do
        let parts ← (first :: rest).mapM (env.exportMember? method s)
        return (parts.flatMap (·.1), parts.flatMap (·.2))
  | _, _ => some ([], [])

/-- The reports on a finished definition that is local and yet exported.  The factories of case
classes carry copies of other annotations and are let pass. -/
def localProblems (annotations : Annotations) (symbol : SymbolRef) : Report :=
  match env.table.get? symbol with
  | none => []
  | some s =>
    let owner? := env.table.get? s.owner
    if !s.isLocal || owner?.any (·.has .caseApply) then []
    else
      let message :=
        if owner?.any (·.has .primaryConstructor) then
          "You may not export a local definition. To export a (case) class field, " ++
            "use the field meta-annotation like this: @(JSExport @field)."
        else "You may not export a local definition"
      let problem : Problem := ⟨.exportedLocal, message⟩
      (env.exportsOf annotations symbol).map fun e => problem.diagnostic e.span

/-- The reports on the exports of an object. -/
def objectProblems (annotations : Annotations) (symbol : SymbolRef) : Report :=
  match (env.table.get? symbol).bind env.objectProblem? with
  | none => []
  | some problem =>
    (env.exportsOf annotations symbol).map fun e => problem.diagnostic e.span

end Env

end Interop
