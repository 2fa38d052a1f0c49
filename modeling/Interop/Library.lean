import Interop.SymbolTable.Basic

/-!
# Well-known symbols

The rules of the pass compare with a few symbols of the host's standard library (`host`) and of
the interop library (`host.js`).  `install` declares these, in a fixed order, and remembers them.
-/

namespace Interop

/-- The symbols that rules compare with. -/
structure Library where
  hostPackage : SymbolId
  anyClass : SymbolId
  objectClass : SymbolId
  classClass : SymbolId
  predef : SymbolId
  /-- makes a type token: the class literal of its type argument -/
  classOf : SymbolId
  enumeration : SymbolId
  /-- what the enumeration factories make -/
  enumValue : SymbolId
  /-- the factory that takes nothing -/
  valueNoArg : SymbolId
  /-- the factory that takes a number -/
  valueInt : SymbolId
  /-- the factory that takes a name -/
  valueName : SymbolId
  /-- the factory that takes a number and a name -/
  valueIntName : SymbolId
  jsPackage : SymbolId
  jsPrimPackage : SymbolId
  /-- the interop marker type -/
  jsAny : SymbolId
  jsObject : SymbolId
  /-- values whose members are looked up by name -/
  jsDynamic : SymbolId
  selectDynamic : SymbolId
  applyDynamic : SymbolId
  /-- the base of all function types of the foreign runtime -/
  jsFunction : SymbolId
  /-- the marker type of the global scope -/
  jsGlobalScope : SymbolId
  /-- the only object that may extend it -/
  jsGlobal : SymbolId
  /-- asks for an export -/
  jsExport : SymbolId
  /-- marks a declaration for the code generator -/
  rawJSType : SymbolId
deriving DecidableEq, Inhabited

namespace Library

open SymbolTable (declare)

/-- Instances of the class `id`. -/
def classTy (id : SymbolId) : Ty := .instanceOf (some id)

/-- Declare the libraries. -/
def install : StateM SymbolTable Library := do
  let hostPackage ← declare (some SymbolTable.root) "host" .package
  let anyClass ← declare (some hostPackage) "Any" (.classDef false [.abstractMod] [])
  let objectClass ← declare (some hostPackage) "Object" (.classDef false [] [classTy anyClass])
  let classClass ← declare (some hostPackage) "Class" (.classDef false [] [classTy objectClass])
  let predef ← declare (some hostPackage) "Predef" (.object [] [classTy objectClass])
  let classOf ← declare (some (predef + 1)) "classOf" (.method [] [] (classTy classClass))
  let _ ← declare (some classOf) "T" .typeParam
  let enumeration ← declare (some hostPackage) "Enumeration"
    (.classDef false [.abstractMod] [classTy objectClass])
  let enumValue ← declare (some enumeration) "Value"
    (.classDef false [.abstractMod] [classTy objectClass])
  let factory (params : List Ty) :=
    declare (some enumeration) "Value" (.method [.protectedMod] params (classTy enumValue))
  let valueNoArg ← factory []
  let valueInt ← factory [.int]
  let valueName ← factory [.str]
  let valueIntName ← factory [.int, .str]
  let jsPackage ← declare (some hostPackage) "js" .package
  let jsPrimPackage ← declare (some jsPackage) "prim" .package
  let jsAny ← declare (some jsPackage) "Any" (.classDef true [] [classTy objectClass])
  let jsObject ← declare (some jsPackage) "Object"
    (.classDef false [] [classTy objectClass, classTy jsAny])
  let jsDynamic ← declare (some jsPackage) "Dynamic" (.classDef true [] [classTy jsAny])
  let selectDynamic ← declare (some jsDynamic) "selectDynamic"
    (.method [] [.str] (classTy jsDynamic))
  let applyDynamic ← declare (some jsDynamic) "applyDynamic"
    (.method [] [.str] (.method [.repeated (classTy anyClass)] (classTy jsDynamic)))
  let jsFunction ← declare (some jsPackage) "Function" (.classDef false [] [classTy jsObject])
  let jsGlobalScope ← declare (some jsPackage) "GlobalScope" (.classDef true [] [classTy jsObject])
  let jsGlobal ← declare (some jsPackage) "global"
    (.object [] [classTy jsObject, classTy jsGlobalScope])
  let annotationPackage ← declare (some jsPackage) "annotation" .package
  let jsExport ← declare (some annotationPackage) "JSExport"
    (.classDef false [] [classTy objectClass])
  let rawJSType ← declare (some annotationPackage) "RawJSType"
    (.classDef false [] [classTy objectClass])
  return {
    hostPackage, anyClass, objectClass, classClass, predef, classOf, enumeration, enumValue,
    valueNoArg, valueInt, valueName, valueIntName, jsPackage, jsPrimPackage, jsAny, jsObject,
    jsDynamic, selectDynamic, applyDynamic, jsFunction, jsGlobalScope, jsGlobal, jsExport,
    rawJSType }

/-- The well-known symbols, and the table in which nothing else is declared. -/
def fresh : Library × SymbolTable := install.run .new

/-- The packages of the interop library, whose declarations may have any parents. -/
def isInteropPackage (lib : Library) (r : SymbolRef) : Bool :=
  r = some lib.jsPackage || r = some lib.jsPrimPackage

end Library

end Interop
