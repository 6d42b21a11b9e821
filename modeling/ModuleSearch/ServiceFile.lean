import ModuleSearch.Name
import ModuleSearch.NameList
import ModuleSearch.Text.Blank
import ModuleSearch.Text.Cut

/-!
# Service files

A service file lists provider classes, one a line. What follows `#` is a comment, blanks around a
name do not count, and a class that is listed again is listed once.
-/

namespace ModuleSearch

inductive ServiceFileError where
  | notUtf8
  /-- Lines count from one. -/
  | illegalName (line : Nat) (name : String)
  deriving DecidableEq, Repr

namespace ServiceFileError

def message : ServiceFileError → String
  | notUtf8 => "service configuration file is not valid UTF-8"
  | illegalName line name =>
    "line " ++ line.repr ++ ": illegal provider-class name '" ++ name ++ "'"

end ServiceFileError

namespace ServiceFile

/-- Service files lie directly under this directory and are named for their service. -/
def directory : String := "META-INF/services/"

def nameOnLine (line : List Char) : List Char := Text.trim (Text.cut '#' line).1

/-- The names on the lines, with their repetitions. -/
def readLines (number : Nat) : List (List Char) → Except ServiceFileError (List String)
  | [] => .ok []
  | line :: rest =>
    let name := String.ofList (nameOnLine line)
    if name.isEmpty then readLines (number + 1) rest
    else if Name.isQualifiedName name then (readLines (number + 1) rest).map (name :: ·)
    else .error (.illegalName number name)

def parse (content : ByteArray) : Except ServiceFileError (List String) :=
  match String.fromUTF8? content with
  | none => .error .notUtf8
  | some text => (readLines 1 (Text.lines text.toList)).map NameList.distinct

end ServiceFile

end ModuleSearch
