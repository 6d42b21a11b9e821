import ModuleSearch.Proofs.BytePath
import ModuleSearch.Proofs.Module.Walk
import ModuleSearch.Proofs.Text.Utf8

/-!
# Files whose paths are texts

A file system keeps paths as bytes. Where these are texts, the files below a directory can be asked
for by texts, and what is listed and what is read is the same: `list_ofPath`, `readBelow_ofPath`.
-/

namespace ModuleSearch

namespace PathKind

theorem child_ofPath (p : Path) (name : String) :
    child (BytePath.ofPath p) name = BytePath.ofPath (p.child name) :=
  BytePath.child_ofPath p name

theorem fileName?_ofPath (p : Path) : fileName? (BytePath.ofPath p) = p.fileName? := by
  have hname : fileName? (BytePath.ofPath p) =
      (BytePath.ofPath p).fileName?.map Text.Utf8.decodeLossy := rfl
  rw [hname, BytePath.fileName?_ofPath]
  cases p.fileName? with
  | none => rfl
  | some name => exact congrArg some (Text.Utf8.decodeLossy_utf8 name)

theorem shown_ofPath (p : Path) : shown (BytePath.ofPath p) = p :=
  congrArg Path.mk (Text.Utf8.decodeLossy_utf8 p.text)

end PathKind

/-- The files of a storage under paths of bytes, which are taken for the texts that they show. -/
def Storage.byteFiles (storage : Storage) : Files BytePath where
  isDirectory p := storage.isDirectory p.toPathLossy
  isFile p := storage.isFile p.toPathLossy
  children p := (storage.children p.toPathLossy).map (List.map .ofPath)
  read p := storage.read p.toPathLossy
  depth := storage.depth

namespace Files

/-- Under the bytes of a text lies what a storage has under the text. -/
structure Encodes (files : Files BytePath) (storage : Storage) : Prop where
  depth_eq : files.depth = storage.depth
  isDirectory_eq : ∀ p, files.isDirectory (.ofPath p) = storage.isDirectory p
  isFile_eq : ∀ p, files.isFile (.ofPath p) = storage.isFile p
  children_eq : ∀ p, files.children (.ofPath p) = (storage.children p).map (List.map .ofPath)
  read_eq : ∀ p, files.read (.ofPath p) = storage.read p

theorem encodes_byteFiles (storage : Storage) : storage.byteFiles.Encodes storage := by
  have hpath : ∀ p, (BytePath.ofPath p).toPathLossy = p := PathKind.shown_ofPath
  refine ⟨rfl, ?_, ?_, ?_, ?_⟩ <;> intro p <;> simp only [Storage.byteFiles, hpath]

variable {files : Files BytePath} {storage : Storage}

theorem readBelow_ofPath (h : files.Encodes storage) (directory : Path) (name : String) :
    files.readBelow (.ofPath directory) name =
      Source.readExploded storage directory name := by
  rw [readBelow, Source.readExploded, readBelow]
  simp only [PathKind.child_ofPath, PathKind.shown_ofPath, h.isFile_eq, h.read_eq]
  rfl

theorem walk_ofPath (h : files.Encodes storage) (depth : Nat) (above : String)
    (directory : Path) :
    files.walk depth above (.ofPath directory) = Source.walk storage depth above directory := by
  induction depth generalizing above directory with
  | zero => rw [walk, Source.walk_zero, PathKind.shown_ofPath]
  | succ depth ih =>
      rw [walk, Source.walk_eq, h.children_eq]
      cases storage.children directory with
      | none => exact congrArg (Except.error ∘ SearchError.unreadable) (PathKind.shown_ofPath _)
      | some children =>
          rw [Option.map_some]
          dsimp only
          rw [mapM_map_congr fun child _ => ?_]
          rw [PathKind.fileName?_ofPath]
          cases child.fileName? with
          | none => rfl
          | some name => simp only [h.isDirectory_eq, ih]

theorem list_ofPath (h : files.Encodes storage) (directory : Path) :
    files.list (.ofPath directory) = (Source.exploded directory).list storage := by
  rw [list, h.depth_eq, walk_ofPath h]
  rfl

end Files

end ModuleSearch
