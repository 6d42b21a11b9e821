import ModuleSearch.Archive
import ModuleSearch.Storage.Basic

/-!
# Candidates

What a path turns out to be when modules are looked for there. Files are told apart by their first
bytes, not by their names.
-/

namespace ModuleSearch

inductive Candidate where
  | absent (path : Path)
  /-- A file that holds one module. -/
  | packaged (path : Path) (format : ArchiveFormat)
  /-- A directory with a descriptor directly in it. -/
  | exploded (path : Path)
  /-- A directory of modules. -/
  | directory (path : Path)
  | unrecognized (path : Path)
  deriving DecidableEq, Repr

namespace Candidate

def path : Candidate → Path
  | absent path | packaged path _ | exploded path | directory path | unrecognized path => path

def classifyFile (storage : Storage) (path : Path) : Except SearchError Candidate :=
  match storage.head path ArchiveFormat.signatureSize with
  | none => .error (.unreadable path)
  | some head =>
    match ArchiveFormat.ofSignature? head with
    | some format => .ok (packaged path format)
    | none => .ok (unrecognized path)

def classify (storage : Storage) (path : Path) : Except SearchError Candidate :=
  if !storage.isPresent path then .ok (absent path)
  else if storage.isDirectory path then
    if storage.isPresent (path.child Document.fileName) then .ok (exploded path)
    else .ok (directory path)
  else classifyFile storage path

def isHidden (path : Path) : Bool := (path.fileName?.bind fun name => name.toList.head?) == some '.'

/-- Directories of modules do not nest: one inside another is not recognized. -/
def nested : Candidate → Candidate
  | directory path => unrecognized path
  | candidate => candidate

/-- The candidates directly in a directory but for hidden ones. -/
def inDirectory (storage : Storage) (path : Path) : Except SearchError (List Candidate) :=
  match storage.children path with
  | none => .error (.unreadable path)
  | some children =>
    (children.filter fun child => !isHidden child).mapM fun child =>
      (classify storage child).map nested

end Candidate

end ModuleSearch
