import ModuleSearch.Proofs.Module.Content

/-!
# What can be read is listed

A file in a directory can be read under many names, of which only one is listed: `listed_of_read`
says which. In an archive each file has one name.
-/

open ModuleSearch.Path (IsName joined)

namespace ModuleSearch

namespace Source

variable {storage : Storage} {source : Source} {directory : Path} {name : String}
  {names : List String} {content : ByteArray}

theorem list_eq_ok_iff : source.list storage = .ok names ↔ ∃ found,
    source.unsortedNames storage = .ok found ∧
      (found.mergeSort fun a b => decide (a ≤ b)) = names := by
  rw [list, bind_eq_ok_iff]
  simp only [pure, Except.pure, Except.ok.injEq]

theorem list_packaged {path : Path} {format : ArchiveFormat} {a : Archive}
    (hload : Archive.load storage path format = .ok a) :
    (packaged path format).list storage =
      .ok (a.names.mergeSort fun a b => decide (a ≤ b)) :=
  list_eq_ok_iff.mpr ⟨a.names, by rw [unsortedNames, hload]; rfl, rfl⟩

/-- Empty parts and dots in a name do not lead to another place. -/
theorem same_child_segments (hdirectory : directory.text ≠ "")
    (hinside : staysInside name = true) (hne : (Path.mk name).segments ≠ []) :
    (directory.child name).same (directory.child (joined (Path.mk name).segments)) = true ∧
      (directory.child (joined (Path.mk name).segments)).EndsWithName := by
  obtain ⟨hrelative, hup⟩ := staysInside_iff.mp hinside
  have hnames : ∀ part ∈ (Path.mk name).segments, IsName part :=
    fun part hpart => Path.isName_of_mem_segments hup hpart
  have hrelative' := Path.isAbsolute_joined hnames
  constructor
  · rw [Path.same_iff]
    constructor
    · rw [Path.start_child hdirectory hrelative, Path.start_child hdirectory hrelative']
    · rw [Path.segments_child hrelative, Path.segments_child hrelative',
        Path.segments_joined hnames hne]
  · rw [Path.endsWithName_child_iff hdirectory hrelative']
    exact Path.endsWithName_joined hnames hne

theorem isFile_descend_segments (hs : storage.Lawful) (hdirectory : directory.text ≠ "")
    (hinside : staysInside name = true) (hfile : storage.isFile (directory.child name) = true) :
    (Path.mk name).segments ≠ [] ∧ (∀ part ∈ (Path.mk name).segments, IsName part) ∧
      storage.isFile (directory.descend (Path.mk name).segments) = true := by
  obtain ⟨hrelative, hup⟩ := staysInside_iff.mp hinside
  have hnames : ∀ part ∈ (Path.mk name).segments, IsName part :=
    fun part hpart => Path.isName_of_mem_segments hup hpart
  have hne : (Path.mk name).segments ≠ [] := by
    obtain ⟨front, last, hparts, hlast⟩ :=
      (Path.endsWithName_child_iff hdirectory hrelative).mp (hs.endsWithName_of_isFile _ hfile)
    refine List.ne_nil_of_mem (List.mem_filter.mpr ⟨?_, hlast.1⟩)
    simp [hparts]
  obtain ⟨hsame, hends⟩ := same_child_segments hdirectory hinside hne
  rw [Path.descend_eq_child hnames hne]
  exact ⟨hne, hnames, hs.isFile_of_same _ _ hfile hsame hends⟩

theorem text_ne_empty_of_list (hs : storage.Lawful)
    (hlist : (exploded directory).list storage = .ok names) : directory.text ≠ "" := by
  obtain ⟨found, hfound, -⟩ := list_eq_ok_iff.mp hlist
  obtain ⟨_, _, -, -, hchildren, -⟩ := of_walk hs hfound
  exact hs.text_ne_empty _ (hs.isDirectory_of_children _ _ hchildren)

theorem mem_list_of_readExploded (hs : storage.Lawful)
    (hread : readExploded storage directory name = .ok (some content))
    (hlist : (exploded directory).list storage = .ok names) :
    joined (Path.mk name).segments ∈ names := by
  obtain ⟨hinside, hfile, -⟩ := readExploded_eq_some_iff.mp hread
  have hdirectory := text_ne_empty_of_list hs hlist
  obtain ⟨found, hfound, rfl⟩ := list_eq_ok_iff.mp hlist
  rw [unsortedNames] at hfound
  obtain ⟨hne, hnames, hfile⟩ := isFile_descend_segments hs hdirectory hinside hfile
  have hmem := mem_of_walk hs hfound hne hnames hfile
  rw [String.empty_append] at hmem
  exact List.mem_mergeSort.mpr hmem

theorem mem_list_of_readPackaged {path : Path} {format : ArchiveFormat}
    (hread : (packaged path format).read storage name = .ok (some content))
    (hlist : (packaged path format).list storage = .ok names) (hname : Archive.IsFileName name) :
    name ∈ names := by
  obtain ⟨found, hfound, rfl⟩ := list_eq_ok_iff.mp hlist
  obtain ⟨a, hload, hread⟩ := bind_eq_ok_iff.mp hread
  rw [unsortedNames, hload] at hfound
  obtain rfl : a.names = found := Except.ok.inj hfound
  exact List.mem_mergeSort.mpr (Archive.mem_names_of_read hread hname)

theorem mem_list_of_readImage {path : Path} {module : String}
    (hread : (image path module).read storage name = .ok (some content))
    (hlist : (image path module).list storage = .ok names) (hname : Archive.IsFileName name) :
    name ∈ names := by
  obtain ⟨found, hfound, rfl⟩ := list_eq_ok_iff.mp hlist
  obtain ⟨a, hload, hread⟩ := bind_eq_ok_iff.mp hread
  rw [unsortedNames, hload] at hfound
  obtain rfl : a.names.filterMap (nameInImage? module) = found := Except.ok.inj hfound
  refine List.mem_mergeSort.mpr (List.mem_filterMap.mpr ⟨_, ?_, nameInImage?_eq_some_iff.mpr rfl⟩)
  exact Archive.mem_names_of_read hread (isFileName_imageDirectory.mpr hname)

theorem joined_segments_of_canonical (h : IsCanonical name) :
    joined (Path.mk name).segments = name := by
  obtain ⟨names, hne, hnames, rfl⟩ := h.exists_names
  rw [Path.segments_joined hnames hne]

/-- A file that can be read is listed: in a directory under its name without empty parts and dots,
in an archive under the name with which it was read. No directory below a directory can be read. -/
theorem listed_of_read (hs : storage.Lawful)
    (hread : source.read storage name = .ok (some content)) :
    (∀ names, source.list storage = .ok names → match source with
      | packaged _ _ | image _ _ => Archive.IsFileName name → name ∈ names
      | exploded _ => joined (Path.mk name).segments ∈ names ∧ (IsCanonical name → name ∈ names)) ∧
    ∀ directory, source = exploded directory →
      storage.isDirectory (directory.child name) = false := by
  constructor
  · intro names hlist
    cases source with
    | packaged path format => exact mem_list_of_readPackaged hread hlist
    | image path module => exact mem_list_of_readImage hread hlist
    | exploded directory =>
        have hmem := mem_list_of_readExploded hs hread hlist
        refine ⟨hmem, fun hname => ?_⟩
        rwa [joined_segments_of_canonical hname] at hmem
  · rintro directory rfl
    obtain ⟨-, hfile, -⟩ := readExploded_eq_some_iff.mp hread
    exact hs.isDirectory_of_isFile _ hfile

theorem list_contentSamples : ∀ source ∈ contentSamples,
    source.list Volume.contentSample.storage = .ok ["A", "p/B"] := by
  intro source hsource
  have hholds := holds_contentSample source hsource
  have hcanonical := isCanonical_contentSample
  have hkeys : NameMap.contentSample.keys = ["A", "p/B"] := by decide +kernel
  rw [← hkeys]
  cases source with
  | packaged path format => exact (content_of_packaged hcanonical hholds).1
  | image path module => exact (content_of_image hcanonical hholds).1
  | exploded directory => exact (content_of_exploded hcanonical hholds).1

theorem list_contentSample :
    (exploded ⟨"/m"⟩).list Volume.contentSample.storage = .ok ["A", "p/B"] :=
  list_contentSamples _ (by simp [contentSamples])

theorem read_contentSample :
    (exploded ⟨"/m"⟩).read Volume.contentSample.storage "./A" = .ok (some "1".toUTF8) := by
  decide +kernel

theorem listed_of_read_sample :
    Volume.contentSample.storage.Lawful ∧
      (exploded ⟨"/m"⟩).read Volume.contentSample.storage "./A" = .ok (some "1".toUTF8) ∧
      (exploded ⟨"/m"⟩).list Volume.contentSample.storage = .ok ["A", "p/B"] ∧
      joined (Path.mk "./A").segments ∈ ["A", "p/B"] ∧
      Volume.contentSample.storage.isDirectory ((Path.mk "/m").child "./A") = false := by
  have hs := Volume.lawful Volume.wellFormed_contentSample
  obtain ⟨hlisted, hfile⟩ := listed_of_read hs read_contentSample
  exact ⟨hs, read_contentSample, list_contentSample, (hlisted _ list_contentSample).1, hfile _ rfl⟩

end Source

/-- A JAR with an entry that has no name, one for a directory, and a file. -/
def Zip.unlistedSample : ByteArray := pack [("", "1".toUTF8), ("p/", .empty), ("A", .empty)]

def Volume.unlistedSample : Volume := .withArchives Zip.unlistedSample .empty .empty

theorem Volume.wellFormed_unlistedSample : unlistedSample.WellFormed :=
  wellFormed_ofFiles (by decide +kernel) (by decide +kernel)

namespace Source

theorem exists_load_unlistedSample :
    ∃ a, Archive.load Volume.unlistedSample.storage ⟨"/m.jar"⟩ .jar = .ok a ∧
      a.zip.names = ["", "p/", "A"] ∧ a.read "" = .ok (some "1".toUTF8) ∧
      a.read "p/" = .ok (some .empty) := by
  obtain ⟨hjar, -, -⟩ := Volume.read_withArchives Zip.unlistedSample .empty .empty
  rw [Archive.load, Volume.unlistedSample, hjar]
  decide +kernel

/-- Not every name under which something can be read is listed: in a directory dots in a name do not
count, and an archive also answers for the entries that are no files or have no name. -/
theorem not_forall_read_listed :
    (¬ ∀ (storage : Storage) (directory : Path) (name : String) (content : ByteArray)
      (names : List String), storage.Lawful →
        (exploded directory).read storage name = .ok (some content) →
          (exploded directory).list storage = .ok names → name ∈ names) ∧
    ∀ name ∈ ["", "p/"], ¬ ∀ (storage : Storage) (path : Path) (content : ByteArray)
      (names : List String), storage.Lawful →
        (packaged path .jar).read storage name = .ok (some content) →
          (packaged path .jar).list storage = .ok names → name ∈ names := by
  constructor
  · intro h
    have hs := Volume.lawful Volume.wellFormed_contentSample
    have hmem := h _ _ _ _ _ hs read_contentSample list_contentSample
    simp at hmem
  · intro name hname h
    have hs := Volume.lawful Volume.wellFormed_unlistedSample
    obtain ⟨a, hload, -, hnameless, hdirectory⟩ := exists_load_unlistedSample
    obtain ⟨content, hread⟩ : ∃ content, a.read name = .ok (some content) := by
      obtain rfl | rfl : name = "" ∨ name = "p/" := by simpa using hname
      · exact ⟨_, hnameless⟩
      · exact ⟨_, hdirectory⟩
    have hmem := h _ _ content _ hs (by rw [read, hload]; exact hread) (list_packaged hload)
    have hnone : ∀ name ∈ ["", "p/"], ¬ Archive.IsFileName name := by decide
    exact hnone name hname (Archive.mem_names.mp (List.mem_mergeSort.mp hmem)).1

end Source

end ModuleSearch
