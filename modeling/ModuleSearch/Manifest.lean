import ModuleSearch.Text.Blank
import ModuleSearch.Text.Cut

/-!
# Manifests

The main section of a manifest is a list of attributes up to the first empty line. An attribute
is written as its name, a colon and its value; a line that starts with a space continues the
value before it.
-/

namespace ModuleSearch

structure Manifest.Attribute where
  name : String
  value : String
  deriving DecidableEq, Repr

/-- The attributes of the main section in their order. -/
structure Manifest where
  attributes : List Manifest.Attribute
  deriving DecidableEq, Repr

inductive ManifestFault where
  | continuationWithoutHeader
  | noColon
  | emptyName
  deriving DecidableEq, Repr

inductive ManifestError where
  | notUtf8
  /-- Lines count from one. -/
  | line (number : Nat) (fault : ManifestFault)
  deriving DecidableEq, Repr

namespace ManifestError

def faultMessage : ManifestFault → String
  | .continuationWithoutHeader => "continuation without header"
  | .noColon => "invalid header field"
  | .emptyName => "empty header name"

def message : ManifestError → String
  | notUtf8 => "manifest is not valid UTF-8"
  | line number fault => "manifest line " ++ number.repr ++ ": " ++ faultMessage fault

end ManifestError

namespace Manifest

def fileName : String := "META-INF/MANIFEST.MF"

def Attribute.extend (a : Attribute) (more : List Char) : Attribute :=
  { a with value := a.value ++ String.ofList more }

/-- What a line adds to the attributes before it, which are held last first. -/
def addLine (done : List Attribute) (line : List Char) : Except ManifestFault (List Attribute) :=
  match line, done with
  | ' ' :: _, [] => .error .continuationWithoutHeader
  | ' ' :: more, last :: before => .ok (last.extend more :: before)
  | _, _ =>
    match Text.cut? ':' line with
    | none => .error .noColon
    | some ([], _) => .error .emptyName
    | some (name, value) =>
      .ok ({ name := String.ofList name, value := String.ofList (Text.trimStart value) } :: done)

/-- Reads lines up to the first empty one. -/
def readLines (number : Nat) (done : List Attribute) :
    List (List Char) → Except ManifestError (List Attribute)
  | [] => .ok done.reverse
  | [] :: _ => .ok done.reverse
  | line :: rest =>
    match addLine done line with
    | .ok done => readLines (number + 1) done rest
    | .error fault => .error (.line number fault)

def parse (content : ByteArray) : Except ManifestError Manifest :=
  match String.fromUTF8? content with
  | none => .error .notUtf8
  | some text => (readLines 1 [] (Text.lines text.toList)).map Manifest.mk

def lowerCase (name : String) : List Char := name.toList.map Char.toLower

/-- The value of the first attribute of a name; ASCII letters are compared without their case. -/
def attribute? (m : Manifest) (name : String) : Option String :=
  (m.attributes.find? fun a => lowerCase a.name == lowerCase name).map Attribute.value

end Manifest

end ModuleSearch
