import ModuleSearch.Module.Located
import ModuleSearch.Storage.Files

/-!
# The content of a module

A module holds resources, each with a name whose parts are separated by slashes. They lie in an
archive, under a directory of a packed image or in a directory; `Source.read` and `Source.list`
answer for all of them.
-/

namespace ModuleSearch

def Archive.load (storage : Storage) (path : Path) (format : ArchiveFormat) :
    Except SearchError Archive :=
  match storage.read path with
  | some bytes => Archive.ofBytes path format bytes
  | none => .error (.unreadable path)

/-- Whether a name stays inside its directory: it neither starts at the root nor goes up. -/
def Source.staysInside (name : String) : Bool :=
  !(Path.mk name).isAbsolute && !(Path.mk name).parts.contains ['.', '.']

namespace Files

variable {P : Type} [PathKind P]

/-- The content of the file of a name below a directory. -/
def readBelow (files : Files P) (directory : P) (name : String) :
    Except SearchError (Option ByteArray) :=
  let path := PathKind.child directory name
  if !Source.staysInside name || !files.isFile path then .ok none
  else
    match files.read path with
    | some content => .ok (some content)
    | none => .error (.unreadable (PathKind.shown path))

/-- The names of the files below a directory, each after `above`. -/
def walk (files : Files P) : Nat → String → P → Except SearchError (List String)
  | 0, _, directory => .error (.unreadable (PathKind.shown directory))
  | depth + 1, above, directory =>
    match files.children directory with
    | none => .error (.unreadable (PathKind.shown directory))
    | some children => do
      let found ← children.mapM fun child =>
        match PathKind.fileName? child with
        | none => .ok []
        | some name =>
          if files.isDirectory child then walk files depth (above ++ name ++ "/") child
          else .ok [above ++ name]
      return found.flatten

/-- The names of all files below a directory in ascending order. -/
def list (files : Files P) (directory : P) : Except SearchError (List String) := do
  let names ← files.walk (files.depth + 1) "" directory
  return names.mergeSort fun a b => decide (a ≤ b)

end Files

namespace Source

def readExploded (storage : Storage) (directory : Path) (name : String) :
    Except SearchError (Option ByteArray) :=
  storage.files.readBelow directory name

def imageDirectory (module : String) : String := module ++ "/"

/-- The content of a resource, nothing if the module has none of that name. -/
def read (storage : Storage) (name : String) : Source → Except SearchError (Option ByteArray)
  | packaged path format => do
    let archive ← Archive.load storage path format
    archive.read name
  | exploded directory => readExploded storage directory name
  | image path module => do
    let archive ← Archive.load storage path .image
    archive.read (imageDirectory module ++ name)

/-- The names of the files below a directory of a storage, each after `above`. -/
def walk (storage : Storage) (depth : Nat) (above : String) (directory : Path) :
    Except SearchError (List String) :=
  storage.files.walk depth above directory

def nameInImage? (module entry : String) : Option String :=
  (Text.dropPrefix? (imageDirectory module).toList entry.toList).map String.ofList

def unsortedNames (storage : Storage) : Source → Except SearchError (List String)
  | packaged path format => do
    let archive ← Archive.load storage path format
    return archive.names
  | exploded directory => walk storage (storage.depth + 1) "" directory
  | image path module => do
    let archive ← Archive.load storage path .image
    return archive.names.filterMap (nameInImage? module)

/-- The names of all resources in ascending order. -/
def list (storage : Storage) (s : Source) : Except SearchError (List String) := do
  let names ← s.unsortedNames storage
  return names.mergeSort fun a b => decide (a ≤ b)

end Source

end ModuleSearch
