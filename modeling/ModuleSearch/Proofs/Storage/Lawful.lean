import ModuleSearch.Proofs.Path
import ModuleSearch.Storage.Basic

/-!
# Laws of storage

What a search may rely on when it asks about files. Links are allowed: nothing is said about two
paths with different names on them.
-/

open ModuleSearch.Path (IsName)

namespace ModuleSearch

namespace Storage

def Holds (storage : Storage) (p : Path) : Prop :=
  storage.isFile p = true ∨ storage.isDirectory p = true

/-- What can be read is a file. -/
def ReadsFilesOnly (storage : Storage) : Prop :=
  ∀ path content, storage.read path = some content → storage.isFile path = true

/-- No directory lies inside more others than the storage says. -/
def BoundsDepth (storage : Storage) : Prop :=
  ∀ p names, storage.isDirectory p = true → (∀ name ∈ names, IsName name) →
    storage.isDirectory (p.descend names) = true → names.length < storage.depth

/-- What the answers about different paths have to do with each other. -/
structure Lawful (storage : Storage) : Prop where
  text_ne_empty : ∀ p, storage.isDirectory p = true → p.text ≠ ""
  isDirectory_of_isFile : ∀ p, storage.isFile p = true → storage.isDirectory p = false
  endsWithName_of_isFile : ∀ p, storage.isFile p = true → p.EndsWithName
  /-- How a path is spelled does not matter as long as it ends with a name. -/
  isFile_of_same : ∀ p q, storage.isFile p = true → p.same q = true → q.EndsWithName →
    storage.isFile q = true
  readsFilesOnly : storage.ReadsFilesOnly
  isDirectory_of_child : ∀ p name, p.text ≠ "" → IsName name →
    storage.Holds (p.child (String.ofList name)) → storage.isDirectory p = true
  isDirectory_of_children : ∀ p children, storage.children p = some children →
    storage.isDirectory p = true
  /-- A listing names no child twice, and goes by names alone. -/
  children_eq : ∀ p children, storage.children p = some children →
    ∃ names : List (List Char), names.Nodup ∧ (∀ name ∈ names, IsName name) ∧
      children = names.map fun name => p.child (String.ofList name)
  mem_children : ∀ p children name, storage.children p = some children → IsName name →
    storage.Holds (p.child (String.ofList name)) → p.child (String.ofList name) ∈ children

namespace Lawful

variable {storage : Storage} {p : Path} {names : List (List Char)}

/-- What lies below a path lies in directories from there on. -/
theorem isDirectory_of_descend (h : storage.Lawful) (hp : p.text ≠ "") (hne : names ≠ [])
    (hnames : ∀ name ∈ names, IsName name) (hholds : storage.Holds (p.descend names)) :
    storage.isDirectory p = true := by
  induction names generalizing p with
  | nil => exact absurd rfl hne
  | cons name rest ih =>
      obtain ⟨hname, hrest⟩ := List.forall_mem_cons.mp hnames
      refine h.isDirectory_of_child p name hp hname ?_
      by_cases hnil : rest = []
      · subst hnil
        exact hholds
      · exact .inr (ih (Path.text_child_ne_empty p hname) hnil hrest hholds)

end Lawful

end Storage

end ModuleSearch
