import ModuleSearch.Proofs.ByteOrder
import ModuleSearch.Proofs.Module.Listing

/-!
# Listings are complete

A listing has all the files of a module and nothing else, in the order of their bytes, and each
name in it can be asked for: `list_complete`. Files whose names are no texts, and entries of an
archive that have no name, cannot be listed so: `not_forall_list_complete`.
-/

open ModuleSearch.Path (IsName joined)

namespace ModuleSearch

variable {storage : Storage} {name : String} {names : List String}

/-- All that is listed in a directory is a file or a directory. -/
def Files.ListsOnlyHeld {P : Type} (files : Files P) : Prop :=
  ∀ p children, files.children p = some children →
    ∀ child ∈ children, files.isFile child = true ∨ files.isDirectory child = true

theorem Volume.listsOnlyHeld {v : Volume} (hv : v.WellFormed) (hfaults : v.faults = []) :
    v.storage.files.ListsOnlyHeld := by
  intro p children (hchildren : v.storage.children p = some children) child hchild
  have hdirectory := (lawful hv).isDirectory_of_children _ _ hchildren
  obtain ⟨children', hchildren', hholds⟩ := exists_children hv hfaults hdirectory
  obtain rfl := Option.some.inj (hchildren.symm.trans hchildren')
  exact hholds child hchild

/-- A zip file has an entry of this name and content. -/
def Zip.Stores (z : Zip) (name : String) (content : ByteArray) : Prop :=
  ∃ e ∈ z.entries, e.name = name ∧ z.readEntry e = .ok content

theorem Zip.stores_iff {z : Zip} {e : Zip.Entry} (he : e ∈ z.entries) {content : ByteArray} :
    z.Stores e.name content ↔ z.readEntry e = .ok content := by
  constructor
  · rintro ⟨e', he', hname, hcontent⟩
    rwa [← eq_of_name_eq he' he hname]
  · exact fun hcontent => ⟨e, he, rfl, hcontent⟩

/-- Under a name that it lists, an archive has a content, or one that cannot be read. -/
theorem Archive.read_of_mem_names {a : Archive} (h : name ∈ a.names) :
    (∃ content, a.zip.Stores (a.format.contentPrefix ++ name) content ∧
      a.read name = .ok (some content)) ∨
    (∀ content, ¬ a.zip.Stores (a.format.contentPrefix ++ name) content) ∧
      (a.read name = .error (.badArchive a.path) ∨ a.read name = .error (.unreadable a.path)) := by
  obtain ⟨e, he, hname⟩ := List.mem_map.mp (mem_names.mp h).2
  rw [read_of_mem_entries he hname, ← hname]
  simp only [Zip.stores_iff he]
  cases a.zip.readEntry e with
  | ok content => exact .inl ⟨content, rfl, rfl⟩
  | error fault => cases fault <;> simp

namespace Source

/-- A source has a file of this name: below its directory at any depth, or in its archive behind
what stands before the names of the module. -/
def Has (storage : Storage) (name : String) : Source → Prop
  | packaged path format => ∃ a, Archive.load storage path format = .ok a ∧
    Archive.IsFileName name ∧ format.contentPrefix ++ name ∈ a.zip.names
  | image path module => ∃ a, Archive.load storage path .image = .ok a ∧
    Archive.IsFileName name ∧ imageDirectory module ++ name ∈ a.zip.names
  | exploded directory => ∃ parts, parts ≠ [] ∧ (∀ part ∈ parts, IsName part) ∧
    name = joined parts ∧ storage.isFile (directory.descend parts) = true

/-- The file of this name has these bytes where it lies, in a directory or an archive. -/
def Contains (storage : Storage) (name : String) (content : ByteArray) : Source → Prop
  | packaged path format => ∃ a, Archive.load storage path format = .ok a ∧
    a.zip.Stores (format.contentPrefix ++ name) content
  | image path module => ∃ a, Archive.load storage path .image = .ok a ∧
    a.zip.Stores (imageDirectory module ++ name) content
  | exploded directory => ∃ parts, parts ≠ [] ∧ (∀ part ∈ parts, IsName part) ∧
    name = joined parts ∧ storage.read (directory.descend parts) = some content

/-- Asking for a name gives the bytes of its file or, if they cannot be had, an error. -/
def Answers (storage : Storage) (source : Source) (name : String) : Prop :=
  (∃ content, source.Contains storage name content ∧
    source.read storage name = .ok (some content)) ∨
  (∀ content, ¬ source.Contains storage name content) ∧
    ∃ path, source.read storage name = .error (.unreadable path) ∨
      source.read storage name = .error (.badArchive path)

/-- All the files of a source, each once, and all of them can be asked for. -/
structure AllFiles (storage : Storage) (source : Source) (found : List String) : Prop where
  nodup : found.Nodup
  mem_iff : ∀ name, name ∈ found ↔ source.Has storage name
  answers : ∀ name ∈ found, source.Answers storage name

theorem answers_of_archive {source : Source} {a : Archive} {entry : String}
    (hread : source.read storage name = a.read entry) (hentry : entry ∈ a.names)
    (hcontains : ∀ content, source.Contains storage name content ↔
      a.zip.Stores (a.format.contentPrefix ++ entry) content) :
    source.Answers storage name := by
  simp only [Answers, hread, hcontains]
  obtain hcontent | ⟨hnone, hbad | hunreadable⟩ := Archive.read_of_mem_names hentry
  · exact .inl hcontent
  · exact .inr ⟨hnone, _, .inr hbad⟩
  · exact .inr ⟨hnone, _, .inl hunreadable⟩

theorem allFiles_packaged {path : Path} {format : ArchiveFormat}
    (h : (packaged path format).unsortedNames storage = .ok names) :
    (packaged path format).AllFiles storage names := by
  rw [unsortedNames, bind_eq_ok_iff] at h
  obtain ⟨a, hload, hnames⟩ := h
  obtain rfl : a.names = names := Except.ok.inj hnames
  obtain ⟨-, rfl⟩ := Archive.of_load hload
  refine ⟨a.nodup_names, fun name => ?_, fun name hname => ?_⟩
  · simp only [Archive.mem_names, Has, hload, Except.ok.injEq, exists_eq_left']
  · refine answers_of_archive (by rw [read, hload]; rfl) hname fun content => ?_
    simp only [Contains, hload, Except.ok.injEq, exists_eq_left']

theorem allFiles_image {path : Path} {module : String}
    (h : (image path module).unsortedNames storage = .ok names) :
    (image path module).AllFiles storage names := by
  rw [unsortedNames, bind_eq_ok_iff] at h
  obtain ⟨a, hload, hnames⟩ := h
  obtain rfl : a.names.filterMap (nameInImage? module) = names := Except.ok.inj hnames
  have habove : a.format.contentPrefix = "" := by
    rw [(Archive.of_load hload).2]
    rfl
  refine ⟨nodup_namesInImage a module, fun name => ?_, fun name hname => ?_⟩
  · simp only [mem_namesInImage habove, Has, hload, Except.ok.injEq, exists_eq_left']
  · obtain ⟨entry, hentry, hname⟩ := List.mem_filterMap.mp hname
    rw [nameInImage?_eq_some_iff.mp hname] at hentry
    refine answers_of_archive (by rw [read, hload]; rfl) hentry fun content => ?_
    simp only [Contains, hload, Except.ok.injEq, exists_eq_left', habove, String.empty_append]

theorem contains_exploded {directory : Path} {content : ByteArray} (hname : IsCanonical name) :
    (exploded directory).Contains storage name content ↔
      storage.read (directory.child name) = some content := by
  constructor
  · rintro ⟨parts, hne, hparts, rfl, hcontent⟩
    rwa [Path.descend_eq_child hparts hne] at hcontent
  · intro hcontent
    obtain ⟨parts, hne, hparts, rfl⟩ := hname.exists_names
    exact ⟨parts, hne, hparts, rfl, by rwa [Path.descend_eq_child hparts hne]⟩

theorem answers_of_isFile {directory : Path} (hname : IsCanonical name)
    (hfile : storage.isFile (directory.child name) = true) :
    (exploded directory).Answers storage name := by
  simp only [Answers, contains_exploded hname]
  rw [read, readExploded_eq, staysInside_of_canonical hname, hfile]
  cases storage.read (directory.child name) with
  | some content => exact .inl ⟨content, rfl, rfl⟩
  | none => exact .inr ⟨by simp, _, .inl rfl⟩

theorem allFiles_exploded {directory : Path} (hs : storage.Lawful)
    (hheld : storage.files.ListsOnlyHeld)
    (h : (exploded directory).unsortedNames storage = .ok names) :
    (exploded directory).AllFiles storage names := by
  have hmem : ∀ name, name ∈ names ↔ (exploded directory).Has storage name := by
    intro name
    rw [mem_walk_iff_exists hs (fun front _ => hheld (directory.descend front)) h]
    simp only [String.empty_append, Has]
  refine ⟨nodup_walk hs h, hmem, fun name hname => ?_⟩
  obtain ⟨parts, hne, hparts, rfl, hfile⟩ := (hmem name).mp hname
  rw [Path.descend_eq_child hparts hne] at hfile
  exact answers_of_isFile (isCanonical_joined hparts hne) hfile

/-- If all that is listed in a directory is there, a listing has the files of the source and
nothing else, in strictly ascending order of their bytes, and none of them is said to be missing
when it is read. -/
theorem list_complete {source : Source} (hs : storage.Lawful) (hheld : storage.files.ListsOnlyHeld)
    (hlist : source.list storage = .ok names) :
    (names.Pairwise fun a b => utf8 a < utf8 b) ∧
      (∀ name, name ∈ names ↔ source.Has storage name) ∧
      ∀ name ∈ names, source.Answers storage name := by
  obtain ⟨found, hfound, rfl⟩ := list_eq_ok_iff.mp hlist
  have hall : source.AllFiles storage found := by
    cases source with
    | packaged path format => exact allFiles_packaged hfound
    | image path module => exact allFiles_image hfound
    | exploded directory => exact allFiles_exploded hs hheld hfound
  simp only [List.mem_mergeSort]
  exact ⟨(ascending_mergeSort hall.nodup).imp utf8_lt, hall.mem_iff, hall.answers⟩

theorem list_complete_sample : Volume.contentSample.storage.Lawful ∧
    Volume.contentSample.storage.files.ListsOnlyHeld ∧
    ∀ source ∈ contentSamples, source.list Volume.contentSample.storage = .ok ["A", "p/B"] ∧
      utf8 "A" < utf8 "p/B" ∧ source.Has Volume.contentSample.storage "p/B" ∧
      ¬ source.Has Volume.contentSample.storage "p" ∧
      source.Answers Volume.contentSample.storage "p/B" := by
  have hv := Volume.wellFormed_contentSample
  have hs := Volume.lawful hv
  have hheld := Volume.listsOnlyHeld hv (by decide +kernel)
  refine ⟨hs, hheld, fun source hsource => ?_⟩
  have hlist := list_contentSamples source hsource
  obtain ⟨hascending, hmem, hanswers⟩ := list_complete hs hheld hlist
  refine ⟨hlist, ?_, (hmem _).mp (by simp), (hmem _).not.mp (by simp), hanswers _ (by simp)⟩
  exact List.rel_of_pairwise_cons hascending (by simp)

end Source

/-! ## Names that are lost -/

/-- A directory with an empty file of each of these names, and nothing else. -/
def Files.flat (directory : BytePath) (names : List (List UInt8)) : Files BytePath where
  isDirectory p := p == directory
  isFile p := (names.map directory.child).contains p
  children p := if p = directory then some (names.map directory.child) else none
  read p := if (names.map directory.child).contains p then some .empty else none
  depth := 1

theorem Files.listsOnlyHeld_flat (directory : BytePath) (names : List (List UInt8)) :
    (flat directory names).ListsOnlyHeld := by
  intro p children hchildren child hchild
  obtain ⟨-, hnames⟩ := Option.ite_none_right_eq_some.mp hchildren
  obtain rfl := Option.some.inj hnames
  exact .inl (List.contains_iff_mem.mpr hchild)

/-- Two files whose names are no texts. -/
def Files.unreadableSample : Files BytePath := .flat (.ofPath ⟨"/m"⟩) [[0xFE], [0xFF]]

theorem Files.list_unreadableSample :
    unreadableSample.list (.ofPath ⟨"/m"⟩) = .ok ["\uFFFD", "\uFFFD"] := by
  have hwalk : unreadableSample.walk 2 "" (.ofPath ⟨"/m"⟩) = .ok ["\uFFFD", "\uFFFD"] := by
    decide +kernel
  have hdepth : unreadableSample.depth + 1 = 2 := rfl
  rw [list, hdepth, hwalk]
  exact congrArg Except.ok (List.mergeSort_of_pairwise (by simp))

theorem Files.readBelow_unreadableSample :
    unreadableSample.readBelow (.ofPath ⟨"/m"⟩) "\uFFFD" = .ok none := by
  decide +kernel

namespace Source

/-- Names that are no texts are replaced, so that two files may be listed under one name, and under
one that they do not have. The entry of an archive that has no name is not listed. -/
theorem not_forall_list_complete :
    (¬ ∀ (files : Files BytePath) (directory : BytePath) (names : List String),
      files.ListsOnlyHeld → files.list directory = .ok names → names.Nodup) ∧
    (¬ ∀ (files : Files BytePath) (directory : BytePath) (names : List String),
      files.ListsOnlyHeld → files.list directory = .ok names →
        ∀ name ∈ names, files.readBelow directory name ≠ .ok none) ∧
    ¬ ∀ (storage : Storage) (path : Path) (a : Archive) (names : List String),
      storage.Lawful → storage.files.ListsOnlyHeld → Archive.load storage path .jar = .ok a →
        (packaged path .jar).list storage = .ok names →
          ∀ entry ∈ a.zip.names, entry.toList.getLast? ≠ some '/' → entry ∈ names := by
  have hheld : Files.unreadableSample.ListsOnlyHeld := Files.listsOnlyHeld_flat _ _
  refine ⟨fun h => ?_, fun h => ?_, fun h => ?_⟩
  · have hnodup := h _ _ _ hheld Files.list_unreadableSample
    simp at hnodup
  · exact h _ _ _ hheld Files.list_unreadableSample "\uFFFD" (by simp)
      Files.readBelow_unreadableSample
  · obtain ⟨a, hload, hnames, -, -⟩ := exists_load_unlistedSample
    have hv := Volume.wellFormed_unlistedSample
    have hmem := h _ _ a _ (Volume.lawful hv) (Volume.listsOnlyHeld hv (by decide +kernel)) hload
      (list_packaged hload) "" (by simp [hnames]) (by simp)
    exact (Archive.mem_names.mp (List.mem_mergeSort.mp hmem)).1.1 rfl

end Source

end ModuleSearch
