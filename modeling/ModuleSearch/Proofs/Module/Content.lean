import Mathlib
import ModuleSearch.Proofs.Archive.Files
import ModuleSearch.Proofs.Module.Walk
import ModuleSearch.Proofs.Storage.Files

/-!
# Content and how it is stored

A module may lie in an archive, in a directory or in a packed image. `Source.Holds` says for each of
them which files it holds; what is listed and what is read depends on nothing else: `content_eq`.
-/

open ModuleSearch.Path (IsName joined)

namespace ModuleSearch

variable {storage : Storage} {files : NameMap ByteArray} {name : String}

theorem IsCanonical.isFileName (h : IsCanonical name) : Archive.IsFileName name := by
  have hempty : [] ∉ (Path.mk name).parts := fun hmem => (h [] hmem).ne_nil rfl
  constructor
  · rintro rfl
    exact hempty (by simp [Path.parts])
  · intro hlast
    obtain ⟨front, hfront⟩ := List.getLast?_eq_some_iff.mp hlast
    refine hempty ?_
    rw [Path.parts, hfront, List.splitOn_append_cons_self, List.splitOn_nil]
    simp

/-- A source holds these files, whatever else lies around them. -/
def Source.Holds (storage : Storage) (files : NameMap ByteArray) : Source → Prop
  | packaged path format =>
    ∃ a, Archive.load storage path format = .ok a ∧ a.zip.Holds format.contentPrefix files
  | image path module =>
    ∃ a, Archive.load storage path .image = .ok a ∧ a.zip.Holds (imageDirectory module) files
  | exploded directory =>
    storage.Lawful ∧ storage.BoundsDepth ∧ storage.HoldsFiles directory files

namespace Source

/-- Names that are all different are in strictly ascending order once they are sorted. -/
theorem ascending_mergeSort {names : List String} (h : names.Nodup) :
    (names.mergeSort fun a b => decide (a ≤ b)).Pairwise (· < ·) := by
  have hsorted : (names.mergeSort fun a b => decide (a ≤ b)).Pairwise
      fun a b => decide (a ≤ b) = true := by
    refine List.pairwise_mergeSort ?_ ?_ names
    · exact fun a b c hab hbc =>
        decide_eq_true (String.le_trans (of_decide_eq_true hab) (of_decide_eq_true hbc))
    · exact fun a b => by simpa using String.le_total a b
  have hnodup := (List.mergeSort_perm names fun a b => decide (a ≤ b)).nodup_iff.mpr h
  refine (hsorted.and hnodup).imp ?_
  rintro a b ⟨hle, hne⟩
  exact String.not_le.mp fun hba => hne (String.le_antisymm (of_decide_eq_true hle) hba)

theorem list_eq_keys {names : List String} {source : Source}
    (h : source.unsortedNames storage = .ok names) (hnodup : names.Nodup)
    (hmem : ∀ name, name ∈ names ↔ name ∈ files.keys) :
    source.list storage = .ok files.keys := by
  have hperm : (names.mergeSort fun a b => decide (a ≤ b)).Perm files.keys :=
    (List.mergeSort_perm _ _).trans
      ((List.perm_ext_iff_of_nodup hnodup files.nodup_keys).mpr hmem)
  -- of two ascending lists with the same members there is only one
  have hsorted : (names.mergeSort fun a b => decide (a ≤ b)) = files.keys :=
    hperm.eq_of_pairwise (fun a b _ _ hab hba => absurd hba (String.lt_asymm hab))
      (ascending_mergeSort hnodup) files.keys_ascending
  rw [list, h]
  exact congrArg Except.ok hsorted

theorem content_of_packaged {path : Path} {format : ArchiveFormat}
    (hcanonical : ∀ name ∈ files.keys, IsCanonical name)
    (h : (packaged path format).Holds storage files) :
    (packaged path format).list storage = .ok files.keys ∧
      ∀ name, IsCanonical name →
        (packaged path format).read storage name = .ok (files.get? name) := by
  obtain ⟨a, hload, hfiles⟩ := h
  obtain ⟨-, rfl⟩ := Archive.of_load hload
  constructor
  · have hnames : (packaged path a.format).unsortedNames storage = .ok a.names := by
      rw [unsortedNames, hload]
      rfl
    refine list_eq_keys hnames a.nodup_names fun name => ?_
    rw [Archive.mem_names]
    constructor
    · exact fun ⟨hname, hmem⟩ => hfiles.mem_keys name hname hmem
    · exact fun hmem => ⟨(hcanonical name hmem).isFileName, hfiles.mem_names hmem⟩
  · intro name hname
    rw [read, hload]
    exact Archive.read_eq_ok_iff.mpr (hfiles.read_eq hname.isFileName)

theorem nameInImage?_eq_some_iff {module entry : String} :
    nameInImage? module entry = some name ↔ entry = imageDirectory module ++ name := by
  rw [nameInImage?, Option.map_eq_some_iff, ← String.toList_inj, String.toList_append]
  simp only [Text.dropPrefix?_eq_some_iff]
  constructor
  · rintro ⟨rest, hentry, rfl⟩
    rwa [String.toList_ofList]
  · exact fun hentry => ⟨name.toList, hentry, String.ofList_toList⟩

theorem isFileName_imageDirectory {module : String} :
    Archive.IsFileName (imageDirectory module ++ name) ↔ Archive.IsFileName name := by
  by_cases hname : name = ""
  · subst hname
    simp [Archive.IsFileName, imageDirectory]
  · rw [Archive.IsFileName, Archive.IsFileName, Archive.getLast?_append _ hname]
    simp [hname]

theorem nodup_namesInImage (a : Archive) (module : String) :
    (a.names.filterMap (nameInImage? module)).Nodup := by
  refine List.Pairwise.filterMap _ ?_ a.nodup_names
  intro entry other hne name hname name' hname' heq
  rw [nameInImage?_eq_some_iff.mp hname, nameInImage?_eq_some_iff.mp hname', heq] at hne
  exact hne rfl

theorem mem_namesInImage {a : Archive} {module : String} (habove : a.format.contentPrefix = "") :
    name ∈ a.names.filterMap (nameInImage? module) ↔
      Archive.IsFileName name ∧ imageDirectory module ++ name ∈ a.zip.names := by
  simp only [List.mem_filterMap, nameInImage?_eq_some_iff, exists_eq_right, Archive.mem_names,
    habove, String.empty_append, isFileName_imageDirectory]

theorem content_of_image {path : Path} {module : String}
    (hcanonical : ∀ name ∈ files.keys, IsCanonical name)
    (h : (image path module).Holds storage files) :
    (image path module).list storage = .ok files.keys ∧
      ∀ name, IsCanonical name →
        (image path module).read storage name = .ok (files.get? name) := by
  obtain ⟨a, hload, hfiles⟩ := h
  have habove : a.format.contentPrefix = "" := by
    rw [(Archive.of_load hload).2]
    rfl
  constructor
  · have hnames : (image path module).unsortedNames storage =
        .ok (a.names.filterMap (nameInImage? module)) := by
      rw [unsortedNames, hload]
      rfl
    refine list_eq_keys hnames (nodup_namesInImage a module) fun name => ?_
    rw [mem_namesInImage habove]
    constructor
    · exact fun ⟨hname, hmem⟩ => hfiles.mem_keys name hname hmem
    · exact fun hmem => ⟨(hcanonical name hmem).isFileName, hfiles.mem_names hmem⟩
  · intro name hname
    rw [read, hload]
    refine Archive.read_eq_ok_iff.mpr ?_
    rw [habove, String.empty_append]
    exact hfiles.read_eq hname.isFileName

theorem readExploded_eq (storage : Storage) (directory : Path) (name : String) :
    readExploded storage directory name =
      if !staysInside name || !storage.isFile (directory.child name) then .ok none
      else
        match storage.read (directory.child name) with
        | some content => .ok (some content)
        | none => .error (.unreadable (directory.child name)) := rfl

theorem readExploded_eq_some_iff {directory : Path} {content : ByteArray} :
    readExploded storage directory name = .ok (some content) ↔
    staysInside name = true ∧ storage.isFile (directory.child name) = true ∧
      storage.read (directory.child name) = some content := by
  rw [readExploded_eq]
  cases staysInside name <;> cases storage.isFile (directory.child name) <;>
    cases storage.read (directory.child name) <;> simp

theorem staysInside_iff : staysInside name = true ↔
    (Path.mk name).isAbsolute = false ∧ ['.', '.'] ∉ (Path.mk name).parts := by
  simp [staysInside]

theorem staysInside_of_canonical (h : IsCanonical name) : staysInside name = true := by
  have habsolute : (Path.mk name).isAbsolute = false := by
    obtain ⟨names, -, hnames, rfl⟩ := h.exists_names
    exact Path.isAbsolute_joined hnames
  have hparent : ['.', '.'] ∉ (Path.mk name).parts := fun hmem => (h _ hmem).2.1 rfl
  exact staysInside_iff.mpr ⟨habsolute, hparent⟩

theorem exists_walk_of_holdsFiles {directory : Path} (hs : storage.Lawful)
    (hdepth : storage.BoundsDepth) (hfiles : storage.HoldsFiles directory files) :
    ∃ found, walk storage (storage.depth + 1) "" directory = .ok found := by
  refine exists_walk hs hfiles.isDirectory fun names hnames hdirectory => ⟨?_, ?_⟩
  · exact Nat.lt_succ_of_lt (hdepth _ names hfiles.isDirectory hnames hdirectory)
  · obtain ⟨children, hchildren, -⟩ := hfiles.listed names hnames hdirectory
    exact ⟨children, hchildren⟩

theorem mem_walk_iff {directory : Path} {found : List String} {depth : Nat} (hs : storage.Lawful)
    (hfiles : storage.HoldsFiles directory files)
    (hcanonical : ∀ name ∈ files.keys, IsCanonical name)
    (hfound : walk storage depth "" directory = .ok found) :
    name ∈ found ↔ name ∈ files.keys := by
  have hheld : ∀ front, (∀ name ∈ front, IsName name) → ∀ children,
      storage.children (directory.descend front) = some children →
        ∀ child ∈ children, storage.Holds child := by
    intro front hfront children hchildren
    obtain ⟨children', hchildren', hholds⟩ :=
      hfiles.listed front hfront (hs.isDirectory_of_children _ _ hchildren)
    obtain rfl := Option.some.inj (hchildren.symm.trans hchildren')
    exact hholds
  rw [mem_walk_iff_exists hs hheld hfound]
  constructor
  · rintro ⟨names, hne, hnames, rfl, hfile⟩
    rw [Path.descend_eq_child hnames hne] at hfile
    rw [String.empty_append]
    exact (hfiles.isFile _ (isCanonical_joined hnames hne)).mp hfile
  · intro hname
    obtain ⟨names, hne, hnames, rfl⟩ := (hcanonical name hname).exists_names
    have hfile := (hfiles.isFile _ (hcanonical _ hname)).mpr hname
    rw [← Path.descend_eq_child hnames hne] at hfile
    exact ⟨names, hne, hnames, by simp, hfile⟩

theorem read_of_holdsFiles {directory : Path} (hfiles : storage.HoldsFiles directory files)
    (hname : IsCanonical name) :
    readExploded storage directory name = .ok (files.get? name) := by
  have hfile := hfiles.isFile name hname
  cases hget : files.get? name with
  | some content =>
      have hmem : name ∈ files.keys := NameMap.mem_keys.mpr (by simp [hget])
      exact readExploded_eq_some_iff.mpr ⟨staysInside_of_canonical hname, hfile.mpr hmem,
        hfiles.read name content hget⟩
  | none =>
      have hmem : name ∉ files.keys := fun hmem => by
        simpa [hget] using NameMap.mem_keys.mp hmem
      have hnot : storage.isFile (directory.child name) = false := by
        simpa using hfile.not.mpr hmem
      simp [readExploded_eq, hnot]

theorem content_of_exploded {directory : Path} (hcanonical : ∀ name ∈ files.keys, IsCanonical name)
    (h : (exploded directory).Holds storage files) :
    (exploded directory).list storage = .ok files.keys ∧
      ∀ name, IsCanonical name →
        (exploded directory).read storage name = .ok (files.get? name) := by
  obtain ⟨hs, hdepth, hfiles⟩ := h
  obtain ⟨found, hfound⟩ := exists_walk_of_holdsFiles hs hdepth hfiles
  exact ⟨list_eq_keys hfound (nodup_walk hs hfound) fun _ =>
    mem_walk_iff hs hfiles hcanonical hfound, fun _ hname => read_of_holdsFiles hfiles hname⟩

/-- What is listed and what is read of a module does not depend on how it is stored. -/
theorem content_eq {source : Source} (hcanonical : ∀ name ∈ files.keys, IsCanonical name)
    (h : source.Holds storage files) :
    source.list storage = .ok files.keys ∧
      ∀ name, IsCanonical name → source.read storage name = .ok (files.get? name) := by
  cases source with
  | packaged path format => exact content_of_packaged hcanonical h
  | image path module => exact content_of_image hcanonical h
  | exploded directory => exact content_of_exploded hcanonical h

end Source

/-- The files of a module `m`. -/
def NameMap.contentSample : NameMap ByteArray := .ofList [("A", "1".toUTF8), ("p/B", .empty)]

/-- Zip files with these files: alone, under a prefix, and as one module of an image. -/
def Zip.jarSample : ByteArray := pack [("p/", .empty), ("p/B", .empty), ("A", "1".toUTF8)]

def Zip.jmodSample : ByteArray :=
  pack [("bin/A", .empty), ("classes/A", "1".toUTF8), ("classes/p/B", .empty)]

def Zip.imageSample : ByteArray := pack [("mm/A", .empty), ("m/p/B", .empty), ("m/A", "1".toUTF8)]

def Volume.withArchives (jar jmod image : ByteArray) : Volume :=
  .ofFiles [(⟨"/m/A"⟩, "1".toUTF8), (⟨"/m/p/B"⟩, .empty), (⟨"/m.jar"⟩, jar), (⟨"/m.jmod"⟩, jmod),
    (⟨"/modules"⟩, image)] []

/-- The module in a directory, a JAR, a JMOD and an image. -/
def Volume.contentSample : Volume :=
  .withArchives Zip.jarSample (Archive.jmodBytes Zip.jmodSample) Zip.imageSample

def Source.contentSamples : List Source :=
  [.exploded ⟨"/m"⟩, .packaged ⟨"/m.jar"⟩ .jar, .packaged ⟨"/m.jmod"⟩ .jmod,
    .image ⟨"/modules"⟩ "m"]

namespace Volume

theorem wellFormed_contentSample : contentSample.WellFormed :=
  wellFormed_ofFiles (by decide +kernel) (by decide +kernel)

theorem read_withArchives (jar jmod image : ByteArray) :
    (withArchives jar jmod image).storage.read ⟨"/m.jar"⟩ = some jar ∧
      (withArchives jar jmod image).storage.read ⟨"/m.jmod"⟩ = some jmod ∧
      (withArchives jar jmod image).storage.read ⟨"/modules"⟩ = some image := by
  refine ⟨?_, ?_, ?_⟩ <;> cbv

end Volume

namespace Source

theorem holds_contentSample : ∀ source ∈ contentSamples,
    source.Holds Volume.contentSample.storage NameMap.contentSample := by
  have hv := Volume.wellFormed_contentSample
  have hexploded : (exploded ⟨"/m"⟩).Holds Volume.contentSample.storage NameMap.contentSample := by
    refine ⟨Volume.lawful hv, Volume.boundsDepth _, ?_⟩
    have hfiles : Volume.contentSample.resources ⟨"/m"⟩ = NameMap.contentSample := by
      decide +kernel
    rw [← hfiles]
    exact Volume.holdsFiles hv (by decide +kernel) (by decide +kernel)
  obtain ⟨hreadJar, hreadJmod, hreadImage⟩ := Volume.read_withArchives Zip.jarSample
    (Archive.jmodBytes Zip.jmodSample) Zip.imageSample
  have hjar : (packaged ⟨"/m.jar"⟩ .jar).Holds Volume.contentSample.storage
      NameMap.contentSample := by
    rw [Holds, Archive.load, Volume.contentSample, hreadJar]
    decide +kernel
  have hjmod : (packaged ⟨"/m.jmod"⟩ .jmod).Holds Volume.contentSample.storage
      NameMap.contentSample := by
    rw [Holds, Archive.load, Volume.contentSample, hreadJmod]
    dsimp only
    rw [Archive.ofBytes_jmod]
    decide +kernel
  have himage : (image ⟨"/modules"⟩ "m").Holds Volume.contentSample.storage
      NameMap.contentSample := by
    rw [Holds, Archive.load, Volume.contentSample, hreadImage]
    decide +kernel
  simp [contentSamples, hexploded, hjar, hjmod, himage]

theorem isCanonical_contentSample : ∀ name ∈ NameMap.contentSample.keys, IsCanonical name := by
  decide +kernel

theorem content_eq_sample : (∀ name ∈ NameMap.contentSample.keys, IsCanonical name) ∧
    ∀ source ∈ contentSamples, source.Holds Volume.contentSample.storage NameMap.contentSample ∧
      source.list Volume.contentSample.storage = .ok ["A", "p/B"] ∧
      source.read Volume.contentSample.storage "A" = .ok (some "1".toUTF8) ∧
      source.read Volume.contentSample.storage "p" = .ok none := by
  refine ⟨isCanonical_contentSample, fun source hsource => ?_⟩
  have hholds := holds_contentSample source hsource
  obtain ⟨hlist, hread⟩ := content_eq isCanonical_contentSample hholds
  refine ⟨hholds, ?_, ?_, ?_⟩
  · rw [hlist]
    decide +kernel
  · rw [hread _ (by decide +kernel)]
    decide +kernel
  · rw [hread _ (by decide +kernel)]
    decide +kernel

end Source

end ModuleSearch
