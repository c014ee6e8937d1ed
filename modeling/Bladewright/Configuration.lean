import Bladewright.Compilation
import Bladewright.Setting.Interpolation

/-!
Configurations: the settings of a compilation as plain data, the standard ones, settings put on top of others, and the
code that a configuration asks for.
-/
namespace Bladewright

open Bladewright.Host Session

/-- The settings of a compilation, as data that is read only when it is used. -/
structure Configuration where
  settings : Datum

namespace Configuration

def standard : Configuration where
  settings := Setting.mapping
    [("signature", .list [.int 3, .int 0, .int 0]),
     ("flatten", .str "nested"),
     ("type", .none),
     ("expression", .str "x: Vector\ny: Vector\nx * y\n"),
     ("bindings", Setting.mapping [("refs", Setting.mapping []), ("funcs", Setting.mapping [])]),
     ("warn_override", .bool true),
     ("function", Setting.mapping [("name", .str "kernel"), ("args", .list [])])]

def override (c : Configuration) (settings : Datum) : Except Setting.Fault Configuration := do
  unless Setting.isWellFormed settings do throw .malformed
  return ⟨← Setting.merge c.settings settings⟩

def setting (c : Configuration) (name : String) : Session Datum := do
  let value := ((Setting.entries c.settings).lookup name).getD .none
  let found ← settle .setting (Setting.follow c.settings Setting.followLimit ⟨[name], value⟩)
  if Setting.isMissing found.value then throw (.setting .missing) else return found.value

def wholeSetting (c : Configuration) (name : String) (strict : Bool) : Session Datum :=
  let value := ((Setting.entries c.settings).lookup name).getD .none
  settle .setting (Setting.settled c.settings strict Setting.followLimit ⟨[name], value⟩)

def isGiven : Datum → Bool
  | .none => false
  | .bool b => b
  | .int n => n != 0
  | .float x => !x.isZero
  | .str s => s != ""
  | .list es | .tuple es | .set es | .mapping es _ => !es.isEmpty
  | _ => true

def entriesOf (setting : Datum) : Session (List (String × Datum)) :=
  match setting with
  | .mapping .. => return Setting.entries setting
  | _ => if isGiven setting then throw (.host .attributeError) else return []

def bindingSettings (bindings : Datum) : Session (Datum × Datum) :=
  match bindings with
  | .mapping .. =>
    let all := Setting.entries bindings
    return ((all.lookup "refs").getD .none, (all.lookup "funcs").getD .none)
  | .list [] => return (.none, .none)
  | .list _ => throw (.host .attributeError)
  | _ => throw (.host (.valueError none))

def referenceSpec : Datum → ReferenceSpec
  | .str source => .text source
  | _ => .other

def functionSpec : Datum → FunctionSpec
  | .str source => .text source
  | value => .other value

def table (c : Configuration) : Session Table := do
  let (references, functions) ← bindingSettings (← c.wholeSetting "bindings" false)
  let warns ← c.setting "warn_override"
  let references := (← entriesOf references).map fun (name, value) => (name, referenceSpec value)
  let table ← (Table.initial true (isGiven warns)).bindReferences references
  let functions := (← entriesOf functions).map fun (name, value) => (name, functionSpec value)
  table.bindFunctions functions

/-- The program that a setting gives. Data that is no text is none, known by its kind. -/
def sourceOf : Datum → Surface.Source
  | .str s => .text s
  | .none => .other "NoneType"
  | .bool _ => .other "bool"
  | .int _ => .other "int"
  | .float _ => .other "float"
  | .mapping .. => .other "DictConfig"
  | _ => .other "ListConfig"

/-- The form of the code; a mode that is no text is no mode, and a type that is no text is left out. -/
def styleOf (mode type : Datum) : Code.Style :=
  let text? : Datum → Option String
    | .str s => some s
    | _ => none
  ⟨(text? mode).getD "", text? type⟩

def isUnfitType : Datum → Bool
  | .str _ | .none => false
  | _ => true

def functionSettings (c : Configuration) : Session (String × List Datum) := do
  match ← c.setting "function" with
  | .mapping .. =>
    let all := Setting.entries (← c.wholeSetting "function" true)
    let name := Setting.plainText ((all.lookup "name").getD .none)
    let args := (all.lookup "args").getD .none
    if !isGiven args then return (name, [])
    else match args.elements? with
      | some es => return (name, es)
      | none => throw (.host .typeError)
  | _ => throw (.host .attributeError)

structure Product where
  signature : Signature
  mode : String
  source : String

def run (c : Configuration) : Session Product := do
  let spec ← c.wholeSetting "signature" true
  let signature ← settle .signature (Signature.ofSpec spec)
  let table ← c.table
  let source := sourceOf (← c.setting "expression")
  let mode ← c.setting "flatten"
  let type ← c.setting "type"
  let style := styleOf mode type
  let compilation ← compile spec source style table
  if isUnfitType type then throw (.host .typeError)
  let (name, parameters) ← c.functionSettings
  if parameters.isEmpty then return ⟨signature, style.mode, compilation.source⟩
  let names := parameters.filterMap fun
    | .str name => some name
    | _ => none
  let definition ← settle .code (Code.generateFunction compilation.result names name style)
  if names.length != parameters.length then throw (.host .typeError)
  if !definition.isWritable then throw (.code .unwritable)
  return ⟨signature, style.mode, listing [definition]⟩

end Configuration

end Bladewright
