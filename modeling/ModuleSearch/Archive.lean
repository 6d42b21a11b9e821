import ModuleSearch.Error
import ModuleSearch.Text.Cut
import ModuleSearch.Zip.Basic

/-!
# Module archives

A JAR is a zip file, a JMOD is four bytes and then a zip file, and a packed image is a zip file too.
The content of a JMOD lies under a prefix, which does not belong to the names of its entries.
-/

namespace ModuleSearch

inductive ArchiveFormat where
  | jar
  | jmod
  | image
  deriving DecidableEq, Repr

namespace ArchiveFormat

/-- The first bytes of a JMOD. -/
def jmodMagic : List UInt8 := [0x4A, 0x4D, 0x01, 0x00]

/-- The first bytes of a zip file with entries, and of one without. -/
def zipMagics : List (List UInt8) := [[0x50, 0x4B, 0x03, 0x04], [0x50, 0x4B, 0x05, 0x06]]

/-- The number of bytes that tell formats apart. -/
def signatureSize : Nat := 4

def startsWith (head : ByteArray) (magic : List UInt8) : Bool :=
  (head.extract 0 magic.length).toList == magic

/-- The format of a file that starts with these bytes. Images are known by their place. -/
def ofSignature? (head : ByteArray) : Option ArchiveFormat :=
  if startsWith head jmodMagic then some jmod
  else if zipMagics.any (startsWith head) then some jar
  else none

/-- What stands before the names of the content. -/
def contentPrefix : ArchiveFormat → String
  | jmod => "classes/"
  | jar | image => ""

end ArchiveFormat

structure Archive where
  path : Path
  format : ArchiveFormat
  zip : Zip

namespace Archive

/-- The zip file in an archive. -/
def zipBytes (path : Path) (format : ArchiveFormat) (bytes : ByteArray) :
    Except SearchError ByteArray :=
  match format with
  | .jmod =>
    if ArchiveFormat.startsWith bytes ArchiveFormat.jmodMagic then
      .ok (bytes.extract ArchiveFormat.jmodMagic.length bytes.size)
    else .error (.malformed path .noJmodMagic)
  | .jar | .image => .ok bytes

def ofBytes (path : Path) (format : ArchiveFormat) (bytes : ByteArray) :
    Except SearchError Archive := do
  let bytes ← zipBytes path format bytes
  match Zip.parse? bytes with
  | some zip => return { path, format, zip }
  | none => throw (.badArchive path)

/-- The name of a content entry; directories are not content. -/
def contentName? (format : ArchiveFormat) (entry : String) : Option String :=
  if entry.toList.getLast? = some '/' then none
  else
    match Text.dropPrefix? format.contentPrefix.toList entry.toList with
    | none | some [] => none
    | some name => some (String.ofList name)

/-- The names of the content, in the order of the archive's directory. -/
def names (a : Archive) : List String := a.zip.names.filterMap (contentName? a.format)

def read (a : Archive) (name : String) : Except SearchError (Option ByteArray) :=
  match a.zip.read (a.format.contentPrefix ++ name) with
  | .ok content => .ok content
  | .error .unsupported => .error (.badArchive a.path)
  | .error .corrupt => .error (.unreadable a.path)

end Archive

end ModuleSearch
