import ModuleSearch.Catalog.Modules
import ModuleSearch.Catalog.Scan

/-!
# Catalogs

A catalog answers which module has a name, and which modules there are. It looks at files only as
far as a query needs, and remembers what it has seen, so that its answers do not change when the
files do. A query gives its answer and the catalog as it is afterwards; after an error every query
on a catalog of files is answered with `SearchError.unusable`.
-/

namespace ModuleSearch

/-- What is known of a module path. -/
inductive PathState where
  /-- The entries that have not been scanned, and the modules of those that have. -/
  | scanning (pending : List Path) (found : Modules)
  | failed
  deriving Repr

/-- What is known of a packed image. -/
inductive ImageState where
  | unread
  | indexed (modules : Modules)
  | failed
  deriving Repr

inductive Catalog where
  | empty
  /-- The modules at the entries of a module path; of two modules with one name the first counts. -/
  | path (state : PathState)
  | image (path : Path) (state : ImageState)
  /-- The modules of two catalogs; of two modules with one name that of the first catalog counts.
  A full listing is kept once it is known. -/
  | concat (first second : Catalog) (all : Option (List LocatedModule))
  deriving Repr

namespace PathState

/-- Scans entries until one has the module. -/
def findFrom (s : Surroundings) (name : String) (found : Modules) :
    List Path → Except SearchError (Option LocatedModule) × PathState
  | [] => (.ok (found.get? name), .scanning [] found)
  | entry :: rest =>
    match found.get? name with
    | some m => (.ok (some m), .scanning (entry :: rest) found)
    | none =>
      match s.scan entry with
      | .error e => (.error e, .failed)
      | .ok modules => findFrom s name (found.addAllNew modules) rest

def findAllFrom (s : Surroundings) (found : Modules) :
    List Path → Except SearchError (List LocatedModule) × PathState
  | [] => (.ok found.toList, .scanning [] found)
  | entry :: rest =>
    match s.scan entry with
    | .error e => (.error e, .failed)
    | .ok modules => findAllFrom s (found.addAllNew modules) rest

def find (s : Surroundings) (name : String) :
    PathState → Except SearchError (Option LocatedModule) × PathState
  | scanning pending found => findFrom s name found pending
  | failed => (.error .unusable, failed)

def findAll (s : Surroundings) : PathState → Except SearchError (List LocatedModule) × PathState
  | scanning pending found => findAllFrom s found pending
  | failed => (.error .unusable, failed)

end PathState

namespace ImageState

/-- Reads the image unless that has been done. -/
def index (s : Surroundings) (path : Path) : ImageState → Except SearchError Modules × ImageState
  | unread =>
    match s.scanImage path with
    | .error e => (.error e, failed)
    | .ok modules =>
      let found := Modules.addAllNew .empty modules
      (.ok found, indexed found)
  | indexed modules => (.ok modules, indexed modules)
  | failed => (.error .unusable, failed)

end ImageState

namespace Catalog

def ofEntries (entries : List Path) : Catalog := path (.scanning entries .empty)

def ofImage (path : Path) : Catalog := image path .unread

def append (first second : Catalog) : Catalog := concat first second none

def find (s : Surroundings) (name : String) :
    Catalog → Except SearchError (Option LocatedModule) × Catalog
  | empty => (.ok none, empty)
  | path state =>
    let (answer, state) := state.find s name
    (answer, path state)
  | image file state =>
    let (answer, state) := state.index s file
    (answer.map fun modules => modules.get? name, image file state)
  | concat first second all =>
    match find s name first with
    | (.ok none, first) =>
      let (answer, second) := find s name second
      (answer, concat first second all)
    | (answer, first) => (answer, concat first second all)

/-- The modules of the names for which there is one, looked up one after the other. -/
def findEach (s : Surroundings) (c : Catalog) :
    List String → Except SearchError (List LocatedModule) × Catalog
  | [] => (.ok [], c)
  | name :: rest =>
    match c.find s name with
    | (.error e, c) => (.error e, c)
    | (.ok m, c) =>
      let (answer, c) := findEach s c rest
      (answer.map fun modules => m.toList ++ modules, c)

def namesOf (modules : List LocatedModule) : List String :=
  (NameSet.ofNames (modules.map LocatedModule.name)).toList

/-- Keeps the full listing of a concatenation. -/
def remember (modules : List LocatedModule) : Catalog → Catalog
  | concat first second _ => concat first second (some modules)
  | c => c

/-- All modules in ascending order of their names. -/
def findAll (s : Surroundings) : Catalog → Except SearchError (List LocatedModule) × Catalog
  | empty => (.ok [], empty)
  | path state =>
    let (answer, state) := state.findAll s
    (answer, path state)
  | image file state =>
    let (answer, state) := state.index s file
    (answer.map Modules.toList, image file state)
  | concat first second (some modules) => (.ok modules, concat first second (some modules))
  | concat first second none =>
    match findAll s first with
    | (.error e, first) => (.error e, concat first second none)
    | (.ok ofFirst, first) =>
      match findAll s second with
      | (.error e, second) => (.error e, concat first second none)
      | (.ok ofSecond, second) =>
        match (concat first second none).findEach s (namesOf (ofFirst ++ ofSecond)) with
        | (.error e, c) => (.error e, c)
        | (.ok modules, c) => (.ok modules, c.remember modules)

end Catalog

end ModuleSearch
