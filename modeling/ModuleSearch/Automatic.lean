import ModuleSearch.Archive

/-!
# Automatic modules

A JAR without a descriptor is an automatic module: it is named by its file name, exports the
packages of its classes, provides what its service files list and has the main class that its
manifest names.
-/

namespace ModuleSearch.Automatic

def classSuffix : String := ".class"

/-- Entries under this directory belong to no package. -/
def metaDirectory : String := "META-INF/"

/-- The class that an entry holds, as a path. -/
def classPath? (entry : String) : Option (List Char) :=
  if (Text.dropPrefix? metaDirectory.toList entry.toList).isSome then none
  else Text.dropSuffix? classSuffix.toList entry.toList

/-- The package of the class at an entry, nothing if it holds no class. -/
def package? (path : Path) (entry : String) : Except SearchError (Option String) :=
  match classPath? entry with
  | none => .ok none
  | some classPath =>
    match Text.cutLast? '/' classPath with
    | none => .error (.unnamedPackage path entry)
    | some (directory, _) =>
      let package := String.ofList (Text.replace '/' '.' directory)
      if Name.isQualifiedName package then .ok (some package)
      else .error (.notDerivable path (.illegalPackage entry package))

def packages (path : Path) (entries : List String) : Except SearchError (List String) := do
  let found ← entries.mapM (package? path)
  return found.filterMap id

/-- The service for which an entry is the service file. -/
def service? (entry : String) : Option String :=
  match Text.dropPrefix? ServiceFile.directory.toList entry.toList with
  | none => none
  | some service => if service.contains '/' then none else some (String.ofList service)

/-- The service and the providers that an entry lists, nothing if it is no service file. -/
def provision? (archive : Archive) (entry : String) :
    Except SearchError (Option (String × List String)) :=
  match service? entry with
  | none => .ok none
  | some service =>
    if Name.isQualifiedName service then do
      let content ← archive.read entry
      match ServiceFile.parse (content.getD .empty) with
      | .ok providers => return some (service, providers)
      | .error cause => throw (.notDerivable archive.path (.serviceFile entry cause))
    else .error (.notDerivable archive.path (.illegalService entry service))

/-- The services with at least one provider. -/
def provisions (archive : Archive) (entries : List String) :
    Except SearchError (List (String × List String)) := do
  let found ← entries.mapM (provision? archive)
  return (found.filterMap id).filter fun p => !p.2.isEmpty

/-- The class that a value names, if it is legal; its parts may be separated by slashes. -/
def mainClass? (value : String) : Option String :=
  let name := String.ofList (Text.replace '/' '.' (Text.trim value.toList))
  if Name.isQualifiedName name then some name else none

def manifestMainClass? (archive : Archive) : Except SearchError (Option String) := do
  match ← archive.read Manifest.fileName with
  | none => return none
  | some content =>
    match Manifest.parse content with
    | .ok manifest => return (manifest.attribute? "Main-Class").bind mainClass?
    | .error cause => throw (.notDerivable archive.path (.manifest cause))

def derivedName (path : Path) : Except SearchError DerivedName :=
  let fileName := path.fileName?.getD ""
  match DerivedName.ofFileName? fileName with
  | some derived => .ok derived
  | none => .error (.notDerivable path (.noName fileName))

def edits (derived : DerivedName) (packages : List String)
    (provisions : List (String × List String)) (mainClass : Option String) : List Draft.Edit :=
  [.automatic true] ++ derived.version.toList.map .version ++ packages.map .exportPackage ++
    provisions.map (fun p => .provide p.1 p.2) ++ mainClass.toList.map .mainClass

/-- The descriptor of the automatic module in an archive. The first fault is the error: of the
name, then of the classes, the service files and the manifest. -/
def descriptor (archive : Archive) : Except SearchError Descriptor := do
  let derived ← derivedName archive.path
  let entries := archive.names
  let packages ← packages archive.path entries
  let provisions ← provisions archive entries
  let mainClass ← manifestMainClass? archive
  match (Draft.ofEdits derived.name (edits derived packages provisions mainClass)).build with
  | .ok d => return d
  | .error cause => throw (.notDerivable archive.path (.descriptor cause))

end ModuleSearch.Automatic
