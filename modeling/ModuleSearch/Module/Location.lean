import ModuleSearch.Module.Located
import ModuleSearch.Url.Basic

/-!
# Locations

The URL of a module: of the file or the directory that holds it, or `jrt:/` and its name if it lies
in a packed image. The URL of a directory ends with a slash.
-/

namespace ModuleSearch.Location

/-- The parts of the path from the root on. -/
def segmentsFrom (workingDirectory path : Path) : List (List Char) :=
  if path.isAbsolute then path.segments else workingDirectory.segments ++ path.segments

def encodeSegment (segment : List Char) : List Char :=
  '/' :: Url.escape .fileName segment

/-- The encoded path from the root on. It is empty for the root itself. -/
def encodePath (segments : List (List Char)) : List Char := segments.flatMap encodeSegment

/-- The URL of a file, nothing for the empty path. -/
def ofFile? (workingDirectory path : Path) : Option String :=
  if path.text.isEmpty then none
  else
    match encodePath (segmentsFrom workingDirectory path) with
    | [] => some "file:///"
    | encoded => some ("file://" ++ String.ofList encoded)

/-- The URL of a directory, nothing for the empty path. -/
def ofDirectory? (workingDirectory path : Path) : Option String :=
  if path.text.isEmpty then none
  else
    some ("file://" ++ String.ofList (encodePath (segmentsFrom workingDirectory path)) ++ "/")

/-- The URL of a module in a packed image, nothing if its name does not give one. -/
def ofImageModule? (module : String) : Option String := (Url.ofRooted? "jrt" module).map Url.text

end ModuleSearch.Location

namespace ModuleSearch

/-- The URL of what a source names; a relative path starts at the working directory. -/
def Source.location? (workingDirectory : Path) : Source → Option String
  | packaged path _ => Location.ofFile? workingDirectory path
  | exploded directory => Location.ofDirectory? workingDirectory directory
  | image _ module => Location.ofImageModule? module

def LocatedModule.location? (workingDirectory : Path) (m : LocatedModule) : Option String :=
  m.source.location? workingDirectory

end ModuleSearch
