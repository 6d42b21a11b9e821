import ModuleSearch.Automatic
import ModuleSearch.Candidate
import ModuleSearch.Module.Content

/-!
# Scanning for modules

Reads the modules at one entry of a module path, and the modules of a packed image. Nothing is
remembered here.
-/

namespace ModuleSearch

/-- What a query may look at: the files, and how descriptor documents are decoded. -/
structure Surroundings where
  storage : Storage
  decode : Decoder

namespace Surroundings

def decodeAt (s : Surroundings) (path : Path) (document : ByteArray) :
    Except SearchError Descriptor :=
  (s.decode document).mapError (.badDescriptor path)

/-- The descriptor in an archive; a JAR without one has a derived descriptor. -/
def archiveDescriptor (s : Surroundings) (archive : Archive) : Except SearchError Descriptor := do
  match ← archive.read Document.fileName with
  | some document => s.decodeAt archive.path document
  | none =>
    if archive.format = .jar then Automatic.descriptor archive
    else
      throw (.malformed archive.path
        (.noDescriptor (archive.format.contentPrefix ++ Document.fileName)))

def readPackaged (s : Surroundings) (path : Path) (format : ArchiveFormat) :
    Except SearchError LocatedModule := do
  let archive ← Archive.load s.storage path format
  let descriptor ← s.archiveDescriptor archive
  return { descriptor, source := .packaged path format }

def readExploded (s : Surroundings) (directory : Path) : Except SearchError LocatedModule :=
  let file := directory.child Document.fileName
  match s.storage.read file with
  | none => .error (.unreadable file)
  | some document =>
    (s.decodeAt file document).map fun descriptor =>
      { descriptor, source := .exploded directory }

def readCandidate (s : Surroundings) : Candidate → Except SearchError (Option LocatedModule)
  | .packaged path format => (s.readPackaged path format).map some
  | .exploded directory => (s.readExploded directory).map some
  | .absent _ | .directory _ | .unrecognized _ => .ok none

/-- Reads the candidates of a directory. The modules before them are given with their paths; a name
may not occur twice. -/
def readCandidates (s : Surroundings) (directory : Path) (before : List (String × Path)) :
    List Candidate → Except SearchError (List LocatedModule)
  | [] => .ok []
  | candidate :: rest => do
    match ← s.readCandidate candidate with
    | none => s.readCandidates directory before rest
    | some m =>
      match before.lookup m.name with
      | some first => throw (.duplicateModule m.name directory first candidate.path)
      | none =>
        let modules ← s.readCandidates directory ((m.name, candidate.path) :: before) rest
        return m :: modules

def scanDirectory (s : Surroundings) (directory : Path) :
    Except SearchError (List LocatedModule) := do
  let candidates ← Candidate.inDirectory s.storage directory
  s.readCandidates directory [] candidates

def scanCandidate (s : Surroundings) : Candidate → Except SearchError (List LocatedModule)
  | .absent _ => .ok []
  | .directory directory => s.scanDirectory directory
  | .unrecognized path => .error (.malformed path .unrecognized)
  | candidate => (s.readCandidate candidate).map Option.toList

def scan (s : Surroundings) (entry : Path) : Except SearchError (List LocatedModule) := do
  let candidate ← Candidate.classify s.storage entry
  s.scanCandidate candidate

/-- The module whose descriptor an image entry is. -/
def indexedName? (entry : String) : Option String :=
  match Text.cut? '/' entry.toList with
  | some (module, rest) =>
    if rest = Document.fileName.toList then some (String.ofList module) else none
  | none => none

/-- The module of a name in an image. Its descriptor must have that name. -/
def readImageModule (s : Surroundings) (image : Archive) (name : String) :
    Except SearchError LocatedModule := do
  let entry := name ++ "/" ++ Document.fileName
  let document ← image.read entry
  let descriptor ← s.decodeAt (image.path.join ⟨entry⟩) (document.getD .empty)
  if descriptor.name = name then return { descriptor, source := .image image.path name }
  else throw (.malformed image.path (.otherModule entry descriptor.name))

def scanImage (s : Surroundings) (path : Path) : Except SearchError (List LocatedModule) := do
  let image ← Archive.load s.storage path .image
  (image.names.filterMap indexedName?).mapM (s.readImageModule image)

end Surroundings

end ModuleSearch
