import ModuleSearch.Proofs.Archive.Files
import ModuleSearch.Proofs.Module.ImageFiles

/-!
# Listing and lookup

An archive lists exactly the files that it finds, and a JMOD is what lies below a directory of the
zip file in it. So what would stand for a listed file that is missing is never used, neither for
the service files of an automatic module nor for the descriptors of an image: `listing_agrees`.
-/

namespace ModuleSearch

variable {absent : Except SearchError ByteArray}

namespace Archive

variable {a : Archive} {name : String}

/-- What is listed are the files that are found, each of them once. -/
structure ListsFound (a : Archive) : Prop where
  nodup : a.names.Nodup
  mem_iff : ∀ name, name ∈ a.names ↔ IsFileName name ∧ a.read name ≠ .ok none

theorem listsFound (a : Archive) : a.ListsFound where
  nodup := a.nodup_names
  mem_iff name := by
    rw [mem_names, Zip.mem_names_iff, ne_eq, ne_eq, read_eq_ok_iff]

/-! ## The part below a directory -/

/-- The name of an entry starts with that of a directory and goes on. -/
def IsBelow (directory entry : String) : Prop :=
  directory.toList <+: entry.toList ∧ entry ≠ directory

instance (directory entry : String) : Decidable (IsBelow directory entry) :=
  inferInstanceAs (Decidable (_ ∧ _))

theorem isBelow_iff {directory entry : String} :
    IsBelow directory entry ↔ ∃ name, name ≠ "" ∧ entry = directory ++ name := by
  constructor
  · rintro ⟨⟨rest, hrest⟩, hlonger⟩
    have hentry : entry = directory ++ String.ofList rest := by
      rw [← String.toList_inj, ← hrest, String.toList_append, String.toList_ofList]
    exact ⟨_, fun h => hlonger (by simpa [h] using hentry), hentry⟩
  · rintro ⟨name, hne, rfl⟩
    exact ⟨⟨name.toList, String.toList_append.symm⟩, by simpa using hne⟩

/-- An archive has what lies below a directory of another, under the rest of its name. -/
structure IsPartBelow (part whole : Archive) (directory : String) : Prop where
  names : part.names.map (directory ++ ·) = whole.names.filter fun entry => IsBelow directory entry
  read : ∀ name, part.read name = whole.read (directory ++ name)

/-- With the prefix before them, the names of the content are those of the files below it. -/
theorem map_names (a : Archive) :
    a.names.map (a.format.contentPrefix ++ ·) = a.zip.names.filter fun entry =>
      IsBelow a.format.contentPrefix entry ∧ entry.toList.getLast? ≠ some '/' := by
  rw [names, List.map_filterMap, ← List.filterMap_eq_filter]
  refine List.filterMap_congr fun entry _ => Option.ext fun full => ?_
  simp only [Option.map_eq_some_iff, contentName?_eq_some_iff, Option.guard_eq_some_iff,
    decide_eq_true_eq, isBelow_iff]
  constructor
  · rintro ⟨name, ⟨⟨hne, hfile⟩, rfl⟩, rfl⟩
    exact ⟨rfl, ⟨name, hne, rfl⟩, (getLast?_append _ hne).symm ▸ hfile⟩
  · rintro ⟨rfl, ⟨name, hne, rfl⟩, hfile⟩
    exact ⟨name, ⟨⟨hne, getLast?_append _ hne ▸ hfile⟩, rfl⟩, rfl⟩

theorem names_jar (h : a.format = .jar) :
    a.names = a.zip.names.filter fun entry => IsFileName entry := by
  have hmap := a.map_names
  simp only [h, ArchiveFormat.contentPrefix, String.empty_append, List.map_id', IsBelow,
    String.toList_empty, List.nil_prefix, true_and] at hmap
  exact hmap

/-- A JAR lists the files of its zip file below each directory. -/
theorem filter_names_jar (h : a.format = .jar) (directory : String) :
    (a.names.filter fun entry => IsBelow directory entry) = a.zip.names.filter fun entry =>
      IsBelow directory entry ∧ entry.toList.getLast? ≠ some '/' := by
  rw [names_jar h, List.filter_filter]
  refine List.filter_congr fun entry _ => ?_
  rw [Bool.eq_iff_iff, Bool.and_eq_true, decide_eq_true_eq, decide_eq_true_eq, decide_eq_true_eq]
  refine and_congr_right fun hbelow => ⟨And.right, fun hfile => ⟨?_, hfile⟩⟩
  obtain ⟨name, hne, rfl⟩ := isBelow_iff.mp hbelow
  exact fun hempty => hne (String.append_eq_empty_iff.mp hempty).2

theorem isPartBelow_jmod (h : a.format = .jar) :
    IsPartBelow { a with format := .jmod } a "classes/" where
  names := (map_names { a with format := .jmod }).trans (filter_names_jar h "classes/").symm
  read name := by
    rw [Archive.read, Archive.read, h]
    simp only [ArchiveFormat.contentPrefix, String.empty_append]

/-! ## What would stand for a missing file -/

/-- The content of a file, or what is to stand for it if the archive has none of that name. -/
def readOr (absent : Except SearchError ByteArray) (a : Archive) (name : String) :
    Except SearchError ByteArray := do
  match ← a.read name with
  | some content => return content
  | none => absent

theorem readOr_eq_of_mem (h : name ∈ a.names) (absent absent' : Except SearchError ByteArray) :
    a.readOr absent name = a.readOr absent' name := by
  rw [readOr, readOr]
  cases hread : a.read name with
  | error e => rfl
  | ok content =>
      cases content with
      | none => exact absurd hread (read_ne_none h)
      | some content => rfl

end Archive

namespace Automatic

variable {a : Archive} {entry : String}

/-- `provision?` with something else for a service file that is missing. -/
def provisionOr? (absent : Except SearchError ByteArray) (a : Archive) (entry : String) :
    Except SearchError (Option (String × List String)) :=
  match service? entry with
  | none => .ok none
  | some service =>
    if Name.isQualifiedName service then do
      match ServiceFile.parse (← a.readOr absent entry) with
      | .ok providers => return some (service, providers)
      | .error cause => throw (.notDerivable a.path (.serviceFile entry cause))
    else .error (.notDerivable a.path (.illegalService entry service))

def provisionsOr (absent : Except SearchError ByteArray) (a : Archive) (entries : List String) :
    Except SearchError (List (String × List String)) := do
  let found ← entries.mapM (provisionOr? absent a)
  return (found.filterMap id).filter fun p => !p.2.isEmpty

/-- `descriptor` with something else for each service file that is missing. -/
def descriptorOr (absent : Except SearchError ByteArray) (a : Archive) :
    Except SearchError Descriptor := do
  let derived ← derivedName a.path
  let packages ← packages a.path a.names
  let provisions ← provisionsOr absent a a.names
  let mainClass ← manifestMainClass? a
  match (Draft.ofEdits derived.name (edits derived packages provisions mainClass)).build with
  | .ok d => return d
  | .error cause => throw (.notDerivable a.path (.descriptor cause))

/-- A service file that is missing counts as empty. -/
theorem provisionOr?_ok_empty (a : Archive) (entry : String) :
    provisionOr? (.ok .empty) a entry = provision? a entry := by
  rw [provisionOr?, provision?, Archive.readOr]
  rcases a.read entry with _ | _ | _ <;> rfl

theorem provisionOr?_eq_of_mem (h : entry ∈ a.names) :
    provisionOr? absent a entry = provision? a entry := by
  rw [← provisionOr?_ok_empty, provisionOr?, provisionOr?,
    Archive.readOr_eq_of_mem h absent (.ok .empty)]

theorem descriptorOr_eq (absent : Except SearchError ByteArray) (a : Archive) :
    descriptorOr absent a = descriptor a := by
  have hprovisions : provisionsOr absent a a.names = provisions a a.names := by
    rw [provisionsOr, provisions, mapM_congr fun entry hentry => provisionOr?_eq_of_mem hentry]
  rw [descriptorOr, hprovisions]
  rfl

end Automatic

namespace Surroundings

variable {s : Surroundings} {image : Archive} {entry name : String}

/-- `readImageModule` with something else for a descriptor that is missing. -/
def readImageModuleOr (absent : Except SearchError ByteArray) (s : Surroundings) (image : Archive)
    (name : String) : Except SearchError LocatedModule := do
  let entry := Document.entryOf name
  let document ← image.readOr absent entry
  let descriptor ← s.decodeAt (image.path.join ⟨entry⟩) document
  if descriptor.name = name then return { descriptor, source := .image image.path name }
  else throw (.malformed image.path (.otherModule entry descriptor.name))

/-- `scanImage` with something else for each descriptor that is missing. -/
def scanImageOr (absent : Except SearchError ByteArray) (s : Surroundings) (path : Path) :
    Except SearchError (List LocatedModule) := do
  let image ← Archive.load s.storage path .image
  (image.names.filterMap indexedName?).mapM (s.readImageModuleOr absent image)

/-- A descriptor that is missing counts as empty. -/
theorem readImageModuleOr_ok_empty (s : Surroundings) (image : Archive) (name : String) :
    s.readImageModuleOr (.ok .empty) image name = s.readImageModule image name := by
  rw [readImageModuleOr, readImageModule, Archive.readOr, Document.entryOf]
  rcases image.read (name ++ "/" ++ Document.fileName) with _ | _ | _ <;> rfl

theorem readImageModuleOr_eq_of_mem (h : entry ∈ image.names)
    (hname : indexedName? entry = some name) :
    s.readImageModuleOr absent image name = s.readImageModule image name := by
  obtain ⟨-, rfl⟩ := indexedName?_eq_some_iff.mp hname
  rw [← readImageModuleOr_ok_empty, readImageModuleOr, readImageModuleOr, Document.entryOf,
    Archive.readOr_eq_of_mem h absent (.ok .empty)]

theorem scanImageOr_eq (absent : Except SearchError ByteArray) (s : Surroundings) (path : Path) :
    s.scanImageOr absent path = s.scanImage path := by
  rw [scanImageOr, scanImage]
  refine congrArg _ (funext fun image => mapM_congr fun name hname => ?_)
  obtain ⟨entry, hentry, hindexed⟩ := List.mem_filterMap.mp hname
  exact readImageModuleOr_eq_of_mem hentry hindexed

end Surroundings

namespace Archive

variable {path : Path} {bytes : ByteArray}

/-! ## Listing and lookup -/

theorem exists_ofBytes_jmod_iff : (∃ jmod, ofBytes path .jmod (jmodBytes bytes) = .ok jmod) ↔
    ∃ jar, ofBytes path .jar bytes = .ok jar := by
  simp only [ofBytes_jmod, map_eq_ok_iff]
  constructor
  · rintro ⟨-, jar, hjar, -⟩
    exact ⟨jar, hjar⟩
  · rintro ⟨jar, hjar⟩
    exact ⟨_, jar, hjar, rfl⟩

theorem isPartBelow_of_ofBytes {jmod jar : Archive}
    (hjmod : ofBytes path .jmod (jmodBytes bytes) = .ok jmod)
    (hjar : ofBytes path .jar bytes = .ok jar) : jmod.IsPartBelow jar "classes/" := by
  rw [ofBytes_jmod, hjar] at hjmod
  obtain rfl := Except.ok.inj hjmod
  exact isPartBelow_jmod (of_ofBytes hjar).2

/-- An archive that opens lists exactly the files that it finds, so that an automatic module and an
image never depend on what stands for a file that is missing. A JMOD opens when the zip file in it
opens as a JAR, and is then what the JAR has below `classes/`. -/
theorem listing_agrees (path : Path) (bytes : ByteArray) :
    (∀ format a, ofBytes path format bytes = .ok a →
      a.ListsFound ∧ ∀ absent, Automatic.descriptorOr absent a = Automatic.descriptor a) ∧
    (∀ absent (s : Surroundings) image, s.scanImageOr absent image = s.scanImage image) ∧
    ((∃ jmod, ofBytes path .jmod (jmodBytes bytes) = .ok jmod) ↔
      ∃ jar, ofBytes path .jar bytes = .ok jar) ∧
    ∀ jmod jar, ofBytes path .jmod (jmodBytes bytes) = .ok jmod →
      ofBytes path .jar bytes = .ok jar → jmod.IsPartBelow jar "classes/" := by
  refine ⟨fun format a _ => ⟨a.listsFound, fun absent => ?_⟩, Surroundings.scanImageOr_eq,
    exists_ofBytes_jmod_iff, fun jmod jar => isPartBelow_of_ofBytes⟩
  exact Automatic.descriptorOr_eq absent a

/-- A zip file with a directory `classes/` in that of a JMOD, and a service file beside it. -/
def nestedSample : ByteArray :=
  Zip.pack [("classes/", .empty), ("classes/classes/A", .empty),
    ("META-INF/services/s.S", "p.A".toUTF8)]

theorem listing_agrees_sample : ∃ jar jmod, ofBytes ⟨"/m.jar"⟩ .jar nestedSample = .ok jar ∧
    ofBytes ⟨"/m.jar"⟩ .jmod (jmodBytes nestedSample) = .ok jmod ∧
      jar.names = ["classes/classes/A", "META-INF/services/s.S"] ∧ jar.ListsFound ∧
      jmod.names = ["classes/A"] ∧ jmod.ListsFound ∧ jmod.IsPartBelow jar "classes/" ∧
      ∃ d, d.provides.get? "s.S" = some ["p.A"] ∧
        ∀ absent, Automatic.descriptorOr absent jar = .ok d := by
  obtain ⟨jar, hjar, hnames, hnames', d, hd, hprovides⟩ : ∃ jar,
      ofBytes ⟨"/m.jar"⟩ .jar nestedSample = .ok jar ∧
        jar.names = ["classes/classes/A", "META-INF/services/s.S"] ∧
          ({ jar with format := .jmod } : Archive).names = ["classes/A"] ∧
            ∃ d, Automatic.descriptor jar = .ok d ∧ d.provides.get? "s.S" = some ["p.A"] := by
    decide +kernel
  have hjmod : ofBytes ⟨"/m.jar"⟩ .jmod (jmodBytes nestedSample) =
      .ok { jar with format := .jmod } := by
    rw [ofBytes_jmod, hjar]
    rfl
  obtain ⟨hopened, -, -, hpart⟩ := listing_agrees ⟨"/m.jar"⟩ nestedSample
  obtain ⟨hopened', -⟩ := listing_agrees ⟨"/m.jar"⟩ (jmodBytes nestedSample)
  obtain ⟨hfound, habsent⟩ := hopened .jar jar hjar
  obtain ⟨hfound', -⟩ := hopened' .jmod _ hjmod
  exact ⟨jar, _, hjar, hjmod, hnames, hfound, hnames', hfound', hpart _ jar hjmod hjar, d,
    hprovides, fun absent => (habsent absent).trans hd⟩

end Archive

end ModuleSearch
