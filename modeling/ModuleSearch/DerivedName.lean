import ModuleSearch.Version

/-!
# Names derived from file names

A JAR without a descriptor is named by its file name. The name part ends at the first hyphen that
is followed by a number, that is, by digits and then a dot or the end; what follows that hyphen is
the version. The words of the name part, joined by dots, are the module name.
-/

namespace ModuleSearch

structure DerivedName where
  name : String
  version : Option Version
  deriving DecidableEq, Repr

namespace DerivedName

def suffix : List Char := ".jar".toList

/-- Drops the suffix `.jar`, in upper or lower case. -/
def dropSuffix (fileName : List Char) : List Char :=
  let stem := fileName.length - suffix.length
  if (fileName.drop stem).map Char.toLower = suffix then fileName.take stem else fileName

/-- Whether a text starts with digits and then ends or goes on with a dot. -/
def startsWithNumber (text : List Char) : Bool :=
  match text.takeWhile Char.isDigit, text.dropWhile Char.isDigit with
  | [], _ => false
  | _, [] => true
  | _, c :: _ => c == '.'

/-- The name part and the version text. -/
def split : List Char → List Char × Option (List Char)
  | [] => ([], none)
  | c :: rest =>
    if c = '-' ∧ startsWithNumber rest then ([], some rest)
    else
      let (name, version) := split rest
      (c :: name, version)

/-- The runs of ASCII letters and digits. -/
def words (text : List Char) : List (List Char) :=
  (text.splitOnP fun c => !c.isAlphanum).filter fun word => !word.isEmpty

def normalize (text : List Char) : List Char := ['.'].intercalate (words text)

/-- Nothing if the name part has no word. A version text that is no version is dropped. -/
def ofFileName? (fileName : String) : Option DerivedName :=
  let (name, version) := split (dropSuffix fileName.toList)
  let name := normalize name
  if name.isEmpty then none
  else some {
    name := String.ofList name
    version := version.bind fun text => Version.parse? (String.ofList text) }

end DerivedName

end ModuleSearch
