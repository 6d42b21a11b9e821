import ModuleSearch.Descriptor.Draft
import ModuleSearch.Json.Reader

/-!
# Descriptor documents

A module carries its descriptor as a JSON document: an object whose members are named in
`Document.fieldNames`, or an array of their values in that order. Only the name must be there. A
dependency is written as its name, or as an object with its name and its modifiers.

`Descriptor.decode` reads a document and checks what it declares; `Descriptor.toJson` is the form
in which a descriptor is shown.
-/

namespace ModuleSearch

/-- A dependency as it is written. -/
structure Document.Dependency where
  name : String
  modifiers : List String
  deriving DecidableEq, Repr

structure Document where
  name : String
  version : Option String
  requires : List Document.Dependency
  exports : List String
  provides : NameMap (List String)
  mainClass : Option String
  deriving DecidableEq, Repr

namespace Document

def fileName : String := "module-info.json"

def fieldNames : List String := ["name", "version", "requires", "exports", "provides", "main_class"]

def occursOnce (members : List (String × Json)) (key : String) : Bool :=
  (members.countP fun m => m.1 == key) ≤ 1

def dependency? : Json → Option Dependency
  | .string name => some { name, modifiers := [] }
  | .object members =>
    if ["name", "modifiers"].all (occursOnce members) then do
      let name ← (members.lookup "name").bind Json.asString?
      let modifiers ← (members.lookup "modifiers").elim (some []) Json.asStrings?
      return { name, modifiers }
    else none
  | _ => none

def dependencies? (v : Json) : Option (List Dependency) :=
  v.asItems?.bind fun items => items.mapM dependency?

/-- No field may be repeated and no other field may be there. -/
def ofMembers? (members : List (String × Json)) : Option Document :=
  if (members.all fun m => fieldNames.contains m.1) && fieldNames.all (occursOnce members) then do
    let name ← (members.lookup "name").bind Json.asString?
    let version ← (members.lookup "version").elim (some none) Json.asOptionalString?
    let requires ← (members.lookup "requires").elim (some []) dependencies?
    let exports ← (members.lookup "exports").elim (some []) Json.asStrings?
    let provides ← (members.lookup "provides").elim (some .empty) Json.asStringLists?
    let mainClass ← (members.lookup "main_class").elim (some none) Json.asOptionalString?
    return { name, version, requires, exports, provides, mainClass }
  else none

/-- In the array form fields may be left out at the end. -/
def ofJson? : Json → Option Document
  | .object members => ofMembers? members
  | .array items =>
    if items.length ≤ fieldNames.length then ofMembers? (fieldNames.zip items) else none
  | _ => none

def modifier (name : String) : Except DescriptorError Modifier :=
  match Modifier.ofName? name with
  | some m => .ok m
  | none => .error (.unknownModifier name)

def Dependency.edit (d : Dependency) : Except DescriptorError Draft.Edit := do
  let modifiers ← d.modifiers.mapM modifier
  return .require d.name modifiers

/-- What a document declares; the first unknown modifier is an error. -/
def edits (d : Document) : Except DescriptorError (List Draft.Edit) := do
  let requires ← d.requires.mapM Dependency.edit
  return d.version.toList.map .versionText ++ requires ++ d.exports.map .exportPackage ++
    d.provides.entries.map (fun e => .provide e.1 e.2) ++ d.mainClass.toList.map .mainClass

def toDescriptor (d : Document) : Except DescriptorError Descriptor := do
  let edits ← d.edits
  (Draft.ofEdits d.name edits).build

end Document

/-- How the bytes of a document become a descriptor. -/
abbrev Decoder := ByteArray → Except DescriptorError Descriptor

namespace Descriptor

def decode : Decoder := fun document =>
  match (Json.parse? document).bind Document.ofJson? with
  | some d => d.toDescriptor
  | none => .error .malformed

def requiresJson (name : String) (modifiers : Modifiers) : Json :=
  .object [("name", .string name), ("modifiers", .strings (modifiers.toList.map Modifier.name))]

def optionalMember (key : String) (value : Option String) : List (String × Json) :=
  value.toList.map fun text => (key, .string text)

/-- The displayed form; the version stands in it twice if its text is a version. -/
def toJson (d : Descriptor) : Json :=
  .object <|
    [("name", .string d.name)] ++ optionalMember "version" (d.version?.map Version.text) ++
      optionalMember "raw_version" d.versionText ++
      [("requires", .array (d.requires.entries.map fun e => requiresJson e.1 e.2)),
        ("exports", .strings d.exports.toList),
        ("provides", .object (d.provides.entries.map fun e => (e.1, .strings e.2)))] ++
      optionalMember "main_class" d.mainClass ++ [("is_automatic", .bool d.isAutomatic)]

end Descriptor

end ModuleSearch
