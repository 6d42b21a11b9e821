import ModuleSearch.BytePath
import ModuleSearch.Storage.Basic

/-!
# Files under paths of some kind

What is asked about the files below a directory does not depend on what a path is, as long as it can
be put together from a directory and a name, and be taken apart again: `PathKind`.
-/

namespace ModuleSearch

class PathKind (P : Type) where
  child : P → String → P
  /-- The last component, if it is a name. What is no text in it is replaced. -/
  fileName? : P → Option String
  /-- The path as an error names it. -/
  shown : P → Path

instance : PathKind Path where
  child := Path.child
  fileName? := Path.fileName?
  shown := id

instance : PathKind BytePath where
  child p name := p.child name.toUTF8.data.toList
  fileName? p := p.fileName?.map Text.Utf8.decodeLossy
  shown := BytePath.toPathLossy

/-- What may be asked of files. A question that fails has no answer. -/
structure Files (P : Type) where
  isDirectory : P → Bool
  isFile : P → Bool
  children : P → Option (List P)
  read : P → Option ByteArray
  /-- No directory lies inside so many others. -/
  depth : Nat

def Storage.files (storage : Storage) : Files Path where
  isDirectory := storage.isDirectory
  isFile := storage.isFile
  children := storage.children
  read := storage.read
  depth := storage.depth

end ModuleSearch
