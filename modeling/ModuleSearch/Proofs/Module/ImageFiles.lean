import ModuleSearch.Proofs.Descriptor.Build
import ModuleSearch.Proofs.Module.Content
import ModuleSearch.Proofs.Module.Discovery

/-!
# The modules among the files of an image

The files of an image lie in a zip file, or in a directory to which they were unpacked. Either way
the modules are those whose descriptors lie among the files (`NameMap.Describes`): `of_scanImage`
and `exists_scan`.
-/

open ModuleSearch.Path (IsName joined)

namespace ModuleSearch

/-- A decoder gives descriptors of legal names only. -/
def Decoder.Legal (decode : Decoder) : Prop :=
  ∀ document d, decode document = .ok d → Name.isModuleName d.name = true

theorem Descriptor.legal_decode : Decoder.Legal decode := by
  intro document d h
  rw [decode] at h
  split at h
  · obtain ⟨edits, -, hbuild⟩ := bind_eq_ok_iff.mp h
    have hname := (Draft.declares_of_build hbuild).name
    rw [Draft.build] at hbuild
    split at hbuild
    · cases hbuild
    · rename_i hproblem
      rw [hname]
      exact (Draft.problem?_ofEdits.mp hproblem).name
  · cases h

/-- Where the descriptor of a module lies in an image. -/
def Document.entryOf (module : String) : String := module ++ "/" ++ Document.fileName

theorem Document.isFileName_entryOf (module : String) :
    Archive.IsFileName (entryOf module) := by
  rw [Archive.IsFileName, entryOf, Archive.getLast?_append _ (by decide)]
  exact ⟨by simp, by decide⟩

/-- The name of a file in an image: all its parts are names, the first is a directory, and nothing
lies below the descriptor of a module. -/
def IsImageEntry (name : String) : Prop :=
  IsCanonical name ∧ 2 ≤ (Path.mk name).parts.length ∧
    (Path.mk name).parts[0]? ≠ some Document.fileName.toList ∧
    ((Path.mk name).parts[1]? = some Document.fileName.toList → (Path.mk name).parts.length = 2)

instance (name : String) : Decidable (IsImageEntry name) :=
  inferInstanceAs (Decidable (_ ∧ _ ∧ _ ∧ _))

/-- The descriptor lies among the files, in a directory of its module's name. -/
def NameMap.Describes (files : NameMap ByteArray) (decode : Decoder) (d : Descriptor) : Prop :=
  '/' ∉ d.name.toList ∧
    ∃ document, files.get? (Document.entryOf d.name) = some document ∧ decode document = .ok d

/-- A directory holds the files of an image, and nothing else. -/
structure Storage.HoldsImage (storage : Storage) (directory : Path) (files : NameMap ByteArray) :
    Prop extends storage.HoldsOnly directory files where
  lawful : storage.Lawful
  isImageEntry : ∀ name ∈ files.keys, IsImageEntry name

namespace NameMap

variable {files : NameMap ByteArray} {decode : Decoder} {d d' : Descriptor}

theorem Describes.unique (h : files.Describes decode d) (h' : files.Describes decode d')
    (hname : d.name = d'.name) : d = d' := by
  obtain ⟨-, document, hdocument, hd⟩ := h
  obtain ⟨-, document', hdocument', hd'⟩ := h'
  rw [hname, hdocument'] at hdocument
  obtain rfl := Option.some.inj hdocument
  exact Except.ok.inj (hd.symm.trans hd')

end NameMap

/-! ## Names of files -/

theorem isImageEntry_joined {names : List (List Char)} (hnames : ∀ name ∈ names, IsName name)
    (hne : names ≠ []) : IsImageEntry (joined names) ↔
      2 ≤ names.length ∧ names[0]? ≠ some Document.fileName.toList ∧
        (names[1]? = some Document.fileName.toList → names.length = 2) := by
  rw [IsImageEntry, Path.parts_joined hnames hne]
  exact and_iff_right (isCanonical_joined hnames hne)

theorem isName_fileName : IsName Document.fileName.toList := by decide

theorem Document.joined_entryOf (top : List Char) :
    joined [top, fileName.toList] = entryOf (String.ofList top) := by
  rw [Path.joined_cons _ (by simp), Path.joined_singleton, String.ofList_toList, entryOf]

theorem Document.parts_entryOf {name : String} (h : '/' ∉ name.toList) :
    (Path.mk (entryOf name)).parts = [name.toList, fileName.toList] := by
  rw [← String.ofList_toList (s := name), ← joined_entryOf, Path.parts, joined,
    String.toList_ofList, String.ofList_toList]
  refine List.splitOn_intercalate '/' ?_ (by simp)
  simpa using ⟨h, by decide⟩

theorem Name.head?_ne_dot {name : String} (h : isModuleName name = true) :
    name.toList.head? ≠ some '.' := by
  intro hdot
  obtain ⟨rest, hrest⟩ := List.head?_eq_some_iff.mp hdot
  have hparts : parts name = [] :: rest.splitOn '.' := by
    rw [parts, hrest, ← List.nil_append ('.' :: rest), List.splitOn_append_cons_self,
      List.splitOn_nil, List.singleton_append]
  simp [isModuleName, hparts, isModulePart] at h

namespace Surroundings

variable {s : Surroundings} {files : NameMap ByteArray} {image : Path} {a : Archive}
  {modules : List LocatedModule}

/-! ## The image -/

theorem readImageModule_of_error {name : String} {e : SearchError}
    (h : a.read (Document.entryOf name) = .error e) : s.readImageModule a name = .error e := by
  rw [Document.entryOf] at h
  simp only [readImageModule, h, bind, Except.bind]

theorem readImageModule_of_read {name : String} {document : ByteArray}
    (h : a.read (Document.entryOf name) = .ok (some document)) :
    s.readImageModule a name =
      match s.decode document with
      | .error problem =>
        .error (.badDescriptor (a.path.join ⟨Document.entryOf name⟩) problem)
      | .ok d =>
        if d.name = name then .ok ⟨d, .image a.path name⟩
        else .error (.malformed a.path (.otherModule (Document.entryOf name) d.name)) := by
  rw [Document.entryOf] at h
  simp only [readImageModule, h, decodeAt, bind, Except.bind, Option.getD_some]
  cases s.decode document <;> rfl

theorem readImageModule_eq_ok_iff_of_read {name : String} {document : ByteArray}
    (h : a.read (Document.entryOf name) = .ok (some document)) {m : LocatedModule} :
    s.readImageModule a name = .ok m ↔ m.name = name ∧ m.source = .image a.path name ∧
      s.decode document = .ok m.descriptor := by
  rw [readImageModule_of_read h]
  cases s.decode document with
  | error problem => simp
  | ok d =>
      dsimp only
      split
      · rename_i hname
        constructor
        · intro heq
          obtain rfl := Except.ok.inj heq
          exact ⟨hname, rfl, rfl⟩
        · rintro ⟨-, hsource, hd⟩
          rw [Except.ok.inj hd, ← hsource]
      · rename_i hname
        constructor
        · rintro ⟨⟩
        · rintro ⟨hm, -, hd⟩
          exact absurd (congrArg Descriptor.name (Except.ok.inj hd) |>.trans hm) hname

theorem readImageModule_eq_ok_iff (hpacked : a.zip.Holds "" files) (hformat : a.format = .image)
    {name : String} (hname : Document.entryOf name ∈ files.keys) {m : LocatedModule} :
    s.readImageModule a name = .ok m ↔ m.name = name ∧ m.source = .image a.path name ∧
      ∃ document, files.get? (Document.entryOf name) = some document ∧
        s.decode document = .ok m.descriptor := by
  obtain ⟨document, hdocument⟩ := Option.isSome_iff_exists.mp (NameMap.mem_keys.mp hname)
  have hread : a.read (Document.entryOf name) = .ok (some document) := by
    rw [Archive.read_eq_ok_iff, hformat]
    exact hpacked.read _ _ hdocument
  rw [readImageModule_eq_ok_iff_of_read hread, hdocument]
  simp only [Option.some.injEq, exists_eq_left']

theorem mem_indexed_iff (hpacked : a.zip.Holds "" files) (hformat : a.format = .image)
    {name : String} :
    name ∈ a.names.filterMap indexedName? ↔
      '/' ∉ name.toList ∧ Document.entryOf name ∈ files.keys := by
  have hfile := Document.isFileName_entryOf name
  have hmem : Document.entryOf name ∈ a.names ↔ Document.entryOf name ∈ files.keys := by
    rw [Archive.mem_names, hformat]
    exact ⟨fun h => hpacked.mem_keys _ hfile h.2, fun h => ⟨hfile, hpacked.mem_names h⟩⟩
  simp only [List.mem_filterMap, indexedName?_eq_some_iff, ← hmem]
  constructor
  · rintro ⟨entry, hentry, hname, rfl⟩
    exact ⟨hname, hentry⟩
  · rintro ⟨hname, hentry⟩
    exact ⟨_, hentry, hname, rfl⟩

/-- An image gives the modules that its files describe, and all its descriptors are in order. -/
theorem of_scanImage (hload : Archive.load s.storage image .image = .ok a)
    (hpacked : a.zip.Holds "" files) (h : s.scanImage image = .ok modules) :
    (∀ m, m ∈ modules ↔
      m.source = .image image m.name ∧ files.Describes s.decode m.descriptor) ∧
    ∀ name, '/' ∉ name.toList → Document.entryOf name ∈ files.keys →
      ∃ d : Descriptor, d.name = name ∧ files.Describes s.decode d := by
  obtain ⟨rfl, hformat⟩ := Archive.of_load hload
  obtain ⟨a', hload', h⟩ := bind_eq_ok_iff.mp h
  obtain rfl := Except.ok.inj (hload.symm.trans hload')
  constructor
  · intro m
    rw [mem_of_mapM_eq_ok h]
    constructor
    · rintro ⟨name, hname, hread⟩
      obtain ⟨hslash, hentry⟩ := (mem_indexed_iff hpacked hformat).mp hname
      obtain ⟨rfl, hsource, hdescribed⟩ :=
        (readImageModule_eq_ok_iff hpacked hformat hentry).mp hread
      exact ⟨hsource, hslash, hdescribed⟩
    · rintro ⟨hsource, hslash, document, hdocument, hd⟩
      have hentry : Document.entryOf m.name ∈ files.keys :=
        NameMap.mem_keys.mpr (Option.isSome_of_mem hdocument)
      exact ⟨m.name, (mem_indexed_iff hpacked hformat).mpr ⟨hslash, hentry⟩,
        (readImageModule_eq_ok_iff hpacked hformat hentry).mpr
          ⟨rfl, hsource, document, hdocument, hd⟩⟩
  · intro name hslash hentry
    have hname := (mem_indexed_iff hpacked hformat).mpr ⟨hslash, hentry⟩
    obtain ⟨m, hread⟩ := exists_mapM_eq_ok_iff.mp ⟨modules, h⟩ name hname
    obtain ⟨rfl, -, hdescribed⟩ := (readImageModule_eq_ok_iff hpacked hformat hentry).mp hread
    exact ⟨m.descriptor, rfl, hslash, hdescribed⟩

end Surroundings

/-! ## The directory -/

theorem Candidate.isHidden_child (directory : Path) {top : List Char} (htop : IsName top) :
    isHidden (directory.child (String.ofList top)) = (top.head? == some '.') := by
  rw [isHidden, Path.fileName?_child htop, Option.bind_some, String.toList_ofList]

/-- What a directory in the directory is taken for. -/
def Candidate.ofTop (directory : Path) (files : NameMap ByteArray) (top : List Char) : Candidate :=
  if Document.entryOf (String.ofList top) ∈ files.keys then
    .exploded (directory.child (String.ofList top))
  else .unrecognized (directory.child (String.ofList top))

namespace Storage.HoldsImage

variable {storage : Storage} {directory : Path} {files : NameMap ByteArray} {top : List Char}

theorem isFile_descend (h : storage.HoldsImage directory files) {names : List (List Char)}
    (hnames : ∀ name ∈ names, IsName name) (hne : names ≠ []) :
    storage.isFile (directory.descend names) = true ↔ joined names ∈ files.keys := by
  rw [Path.descend_eq_child hnames hne]
  exact h.isFile _ (isCanonical_joined hnames hne)

/-- What lies directly in the directory is the directory of a module. -/
theorem isDirectory_child (h : storage.HoldsImage directory files) (htop : IsName top)
    (hholds : storage.Holds (directory.child (String.ofList top))) :
    storage.isDirectory (directory.child (String.ofList top)) = true := by
  refine hholds.resolve_left fun hfile => ?_
  have hnames : ∀ name ∈ [top], IsName name := by simpa using htop
  have hmem := (h.isFile_descend hnames (by simp)).mp hfile
  exact absurd ((isImageEntry_joined hnames (by simp)).mp (h.isImageEntry _ hmem)).1 (by simp)

theorem ne_fileName (h : storage.HoldsImage directory files) (htop : IsName top)
    (hdirectory : storage.isDirectory (directory.child (String.ofList top)) = true) :
    top ≠ Document.fileName.toList := by
  obtain ⟨rest, -, hrest, hmem⟩ := h.exists_file [top] (by simp) (by simpa using htop) hdirectory
  have hnames : ∀ name ∈ [top] ++ rest, IsName name :=
    List.forall_mem_append.mpr ⟨by simpa using htop, hrest⟩
  simpa using ((isImageEntry_joined hnames (by simp)).mp (h.isImageEntry _ hmem)).2.1

theorem isPresent_document (h : storage.HoldsImage directory files) :
    storage.isPresent (directory.child Document.fileName) = false := by
  have hpresent := h.isPresent [Document.fileName.toList] (by simpa using isName_fileName)
  rw [Path.descend_cons, Path.descend_nil, String.ofList_toList] at hpresent
  rw [← Bool.not_eq_true, hpresent]
  intro hholds
  rw [← String.ofList_toList (s := Document.fileName)] at hholds
  exact h.ne_fileName isName_fileName (h.isDirectory_child isName_fileName hholds) rfl

/-- A directory in the directory has a descriptor exactly if the files say so. -/
theorem isPresent_descriptor (h : storage.HoldsImage directory files) (htop : IsName top) :
    storage.isPresent ((directory.child (String.ofList top)).child Document.fileName) = true ↔
      Document.entryOf (String.ofList top) ∈ files.keys := by
  have hnames : ∀ name ∈ [top, Document.fileName.toList], IsName name := by
    simpa using ⟨htop, isName_fileName⟩
  have hpresent := h.isPresent _ hnames
  have hfile := h.isFile_descend hnames (by simp)
  have hnot : storage.isDirectory (directory.descend [top, Document.fileName.toList]) = false := by
    rw [← Bool.not_eq_true]
    intro hdirectory
    obtain ⟨rest, hne, hrest, hmem⟩ := h.exists_file _ (by simp) hnames hdirectory
    have hall := List.forall_mem_append.mpr ⟨hnames, hrest⟩
    have hlength := ((isImageEntry_joined hall (by simp)).mp (h.isImageEntry _ hmem)).2.2 (by simp)
    exact hne (by simpa using hlength)
  rw [Storage.Holds, hnot, hfile, Document.joined_entryOf] at hpresent
  simpa using hpresent

theorem classify_directory (h : storage.HoldsImage directory files) :
    Candidate.classify storage directory = .ok (.directory directory) := by
  have hpresent : storage.isPresent directory = true :=
    (h.isPresent [] (by simp)).mpr (.inr h.isDirectory)
  rw [Candidate.classify, hpresent, h.isDirectory, h.isPresent_document]
  rfl

theorem classify_child (h : storage.HoldsImage directory files) (htop : IsName top)
    (hholds : storage.Holds (directory.child (String.ofList top))) :
    (Candidate.classify storage (directory.child (String.ofList top))).map Candidate.nested =
      .ok (Candidate.ofTop directory files top) := by
  have hpresent := (h.isPresent [top] (by simpa using htop)).mpr hholds
  rw [Path.descend_cons, Path.descend_nil] at hpresent
  rw [Candidate.classify, hpresent, h.isDirectory_child htop hholds, Candidate.ofTop]
  by_cases hentry : Document.entryOf (String.ofList top) ∈ files.keys
  · rw [if_pos hentry, (h.isPresent_descriptor htop).mpr hentry]
    rfl
  · have hnot := (h.isPresent_descriptor htop).not.mpr hentry
    rw [Bool.not_eq_true] at hnot
    rw [if_neg hentry, hnot]
    rfl

/-- The candidates are the directories that are not hidden. -/
theorem exists_tops (h : storage.HoldsImage directory files) :
    ∃ tops : List (List Char), tops.Nodup ∧ (∀ top, top ∈ tops ↔ IsName top ∧
        storage.Holds (directory.child (String.ofList top)) ∧ top.head? ≠ some '.') ∧
      Candidate.inDirectory storage directory =
        .ok (tops.map (Candidate.ofTop directory files)) := by
  obtain ⟨children, hchildren, hholds⟩ := h.listed [] (by simp) h.isDirectory
  obtain ⟨names, hnodup, hnames, rfl⟩ := h.lawful.children_eq _ _ hchildren
  refine ⟨names.filter fun top => top.head? != some '.', hnodup.filter _, fun top => ?_, ?_⟩
  · rw [List.mem_filter, bne_iff_ne]
    constructor
    · rintro ⟨hmem, hvisible⟩
      exact ⟨hnames top hmem, hholds _ (List.mem_map_of_mem hmem), hvisible⟩
    · rintro ⟨htop, hchild, hvisible⟩
      obtain ⟨name, hname, heq⟩ :=
        List.mem_map.mp (h.lawful.mem_children _ _ top hchildren htop hchild)
      obtain rfl := Path.child_injective (hnames name hname) htop heq
      exact ⟨hname, hvisible⟩
  · rw [Path.descend_nil] at hchildren
    have hvisible : (names.map fun top => directory.child (String.ofList top)).filter
          (fun child => !Candidate.isHidden child) =
        (names.filter fun top => top.head? != some '.').map
          fun top => directory.child (String.ofList top) := by
      rw [List.filter_map]
      refine congrArg _ (List.filter_congr fun top htop => ?_)
      rw [Function.comp_apply, Candidate.isHidden_child directory (hnames top htop), bne]
    simp only [Candidate.inDirectory, hchildren, hvisible]
    refine (mapM_map_congr fun top htop => ?_).trans List.mapM_pure
    obtain ⟨hmem, -⟩ := List.mem_filter.mp htop
    exact h.classify_child (hnames top hmem) (hholds _ (List.mem_map_of_mem hmem))

end Storage.HoldsImage

namespace Surroundings

variable {s : Surroundings} {directory : Path} {files : NameMap ByteArray} {top : List Char}

theorem readCandidates_of_mapM {before : List (String × Path)} {candidates : List Candidate}
    {found : List (Option LocatedModule)} (h : candidates.mapM s.readCandidate = .ok found)
    (hnames : found.reduceOption.Pairwise fun m n => m.name ≠ n.name)
    (hbefore : ∀ m ∈ found.reduceOption, before.lookup m.name = none) :
    s.readCandidates directory before candidates = .ok found.reduceOption := by
  induction candidates generalizing before found with
  | nil =>
      obtain rfl : [] = found := Except.ok.inj h
      rfl
  | cons candidate rest ih =>
      simp only [List.mapM_cons, bind_eq_ok_iff] at h
      obtain ⟨first, hfirst, others, hothers, h⟩ := h
      obtain rfl : first :: others = found := Except.ok.inj h
      rw [readCandidates, hfirst]
      cases first with
      | none =>
          rw [List.reduceOption_cons_of_none] at hnames hbefore ⊢
          exact ih hothers hnames hbefore
      | some m =>
          rw [List.reduceOption_cons_of_some] at hnames hbefore ⊢
          obtain ⟨hm, hothersNames⟩ := List.pairwise_cons.mp hnames
          obtain ⟨hmissing, hothersMissing⟩ := List.forall_mem_cons.mp hbefore
          have hbefore' : ∀ n ∈ others.reduceOption,
              List.lookup n.name ((m.name, candidate.path) :: before) = none := by
            intro n hn
            rw [List.lookup_cons, beq_false_of_ne (hm n hn).symm]
            exact hothersMissing n hn
          simp only [bind, Except.bind, hmissing, ih hothers hothersNames hbefore']
          rfl

theorem exists_readCandidate (h : s.storage.HoldsImage directory files) (htop : IsName top)
    (hdescribed : ∀ name, '/' ∉ name.toList → Document.entryOf name ∈ files.keys →
      ∃ d : Descriptor, d.name = name ∧ files.Describes s.decode d) :
    ∃ found, s.readCandidate (Candidate.ofTop directory files top) = .ok found ∧
      ∀ m, found = some m ↔ m.name = String.ofList top ∧
        m.source = .exploded (directory.child m.name) ∧ files.Describes s.decode m.descriptor := by
  rw [Candidate.ofTop]
  by_cases hentry : Document.entryOf (String.ofList top) ∈ files.keys
  · obtain ⟨d, hname, hd⟩ := hdescribed _ (by simpa using htop.2.2) hentry
    obtain ⟨document, hdocument, hdecode⟩ := hd.2
    have hread : s.storage.read ((directory.child (String.ofList top)).child Document.fileName) =
        some document := by
      rw [Path.child_child htop (by decide), ← Document.entryOf, ← hname]
      exact h.read _ _ hdocument
    refine ⟨some ⟨d, .exploded (directory.child (String.ofList top))⟩, ?_, fun m => ?_⟩
    · rw [if_pos hentry]
      simp only [readCandidate, readExploded, hread, decodeAt, hdecode]
      rfl
    · constructor
      · intro hm
        obtain rfl := Option.some.inj hm
        exact ⟨hname, by rw [LocatedModule.name, hname], hd⟩
      · rintro ⟨hm, hsource, hdescriptor⟩
        obtain rfl : m.descriptor = d := hdescriptor.unique hd (hm.trans hname.symm)
        rw [← hm, ← hsource]
  · refine ⟨none, by rw [if_neg hentry]; rfl, fun m => ?_⟩
    constructor
    · rintro ⟨⟩
    · rintro ⟨hm, -, -, document, hdocument, -⟩
      refine absurd (NameMap.mem_keys.mpr ?_) hentry
      rw [← hm]
      exact Option.isSome_of_mem hdocument

/-- A module that the files describe has a directory among those that are not hidden. -/
theorem holds_child_of_describes (h : s.storage.HoldsImage directory files)
    (hlegal : s.decode.Legal) {d : Descriptor} (hd : files.Describes s.decode d) :
    IsName d.name.toList ∧ s.storage.Holds (directory.child (String.ofList d.name.toList)) ∧
      d.name.toList.head? ≠ some '.' := by
  obtain ⟨hslash, document, hdocument, hdecode⟩ := hd
  have hmem : Document.entryOf d.name ∈ files.keys :=
    NameMap.mem_keys.mpr (Option.isSome_of_mem hdocument)
  have hname : IsName d.name.toList :=
    (h.isImageEntry _ hmem).1 _ (by simp [Document.parts_entryOf hslash])
  have hnames : ∀ part ∈ [d.name.toList, Document.fileName.toList], IsName part := by
    simpa using ⟨hname, isName_fileName⟩
  have hfile := h.isFile_descend hnames (by simp)
  rw [Document.joined_entryOf, String.ofList_toList, Path.descend_cons, Path.descend_cons,
    Path.descend_nil] at hfile
  have hdirectory := h.lawful.isDirectory_of_child _ _ (Path.text_child_ne_empty directory hname)
    isName_fileName (.inl (hfile.mpr hmem))
  exact ⟨hname, .inr hdirectory, Name.head?_ne_dot (hlegal _ _ hdecode)⟩

/-- If the descriptors among the files are in order, a directory with the files gives the modules
that they describe. -/
theorem exists_scan (h : s.storage.HoldsImage directory files) (hlegal : s.decode.Legal)
    (hdescribed : ∀ name, '/' ∉ name.toList → Document.entryOf name ∈ files.keys →
      ∃ d : Descriptor, d.name = name ∧ files.Describes s.decode d) :
    ∃ modules, s.scan directory = .ok modules ∧ ∀ m, m ∈ modules ↔
      m.source = .exploded (directory.child m.name) ∧ files.Describes s.decode m.descriptor := by
  obtain ⟨tops, hnodup, htops, hcandidates⟩ := h.exists_tops
  have hread := fun top (htop : top ∈ tops) =>
    exists_readCandidate h ((htops top).mp htop).1 hdescribed
  obtain ⟨found, hfound⟩ := exists_mapM_eq_ok_iff.mpr fun top htop => (hread top htop).imp
    fun _ => And.left
  -- what is read of a directory is the module of its name
  have hspec : ∀ top ∈ tops, ∀ m,
      s.readCandidate (Candidate.ofTop directory files top) = .ok (some m) ↔
        m.name = String.ofList top ∧ m.source = .exploded (directory.child m.name) ∧
          files.Describes s.decode m.descriptor := by
    intro top htop m
    obtain ⟨found', hfound', hspec⟩ := hread top htop
    rw [hfound', ← hspec, Except.ok.injEq]
  have hmem : ∀ m, m ∈ found.reduceOption ↔
      m.source = .exploded (directory.child m.name) ∧ files.Describes s.decode m.descriptor := by
    intro m
    rw [List.reduceOption_mem_iff, mem_of_mapM_eq_ok hfound]
    constructor
    · rintro ⟨top, htop, hm⟩
      exact ((hspec top htop m).mp hm).2
    · rintro ⟨hsource, hd⟩
      have htop := (htops _).mpr (holds_child_of_describes h hlegal hd)
      exact ⟨_, htop, (hspec _ htop m).mpr ⟨String.ofList_toList.symm, hsource, hd⟩⟩
  have hnames : found.reduceOption.Pairwise fun m n => m.name ≠ n.name := by
    have hpairwise : found.Pairwise fun a b => ∀ m ∈ a, ∀ n ∈ b, m.name ≠ n.name := by
      refine pairwise_of_mapM_eq_ok ?_ hfound
        (hnodup.imp_of_mem fun ha hb hne => And.intro hne (And.intro ha hb))
      rintro top other _ _ ⟨hne, htop, hother⟩ hm hn m rfl n rfl hname
      rw [((hspec top htop m).mp hm).1, ((hspec other hother n).mp hn).1,
        String.ofList_inj] at hname
      exact hne hname
    refine hpairwise.filterMap _ ?_
    rintro _ _ hne m rfl n rfl
    exact hne m rfl n rfl
  refine ⟨found.reduceOption, ?_, hmem⟩
  have hcandidatesRead :
      s.readCandidates directory [] (tops.map (Candidate.ofTop directory files)) =
        .ok found.reduceOption :=
    readCandidates_of_mapM (by rw [List.mapM_map]; exact hfound) hnames (by simp)
  rw [scan, h.classify_directory]
  change s.scanDirectory directory = _
  rw [scanDirectory, hcandidates]
  exact hcandidatesRead

end Surroundings

end ModuleSearch
