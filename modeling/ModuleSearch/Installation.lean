import ModuleSearch.Catalog.Basic

/-!
# Runtime installations

An installation holds its modules in a packed image or, if it has none, in a directory of modules.
Only where they are is looked up here; they are read by the first query.
-/

namespace ModuleSearch.Installation

inductive Layout where
  | image
  | directory
  deriving DecidableEq, Repr

def imagePath (home : Path) : Path := home.join ⟨"lib/modules"⟩

def directoryPath (home : Path) : Path := home.join ⟨"modules"⟩

/-- How an installation holds its modules, if it may be read. -/
def layout (storage : Storage) (permits : Path → Bool) (home : Path) : Except SearchError Layout :=
  if !permits home then .error (.accessDenied home)
  else if storage.isFile (imagePath home) then .ok .image
  else if storage.isDirectory (directoryPath home) then .ok .directory
  else .error (.noInstallation home)

def Layout.catalog (home : Path) : Layout → Catalog
  | image => .ofImage (imagePath home)
  | directory => .ofEntries [directoryPath home]

def permitsAll : Path → Bool := fun _ => true

def catalog (storage : Storage) (permits : Path → Bool) (home : Path) :
    Except SearchError Catalog :=
  (layout storage permits home).map (Layout.catalog home)

end ModuleSearch.Installation
