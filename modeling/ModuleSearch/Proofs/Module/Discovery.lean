import ModuleSearch.Proofs.Automatic.Descriptor
import ModuleSearch.Proofs.Catalog.Origin
import ModuleSearch.Proofs.Descriptor.Documents
import ModuleSearch.Proofs.Module.Content

/-!
# Discovery and reading

A module is found through its archive, directory or image and is read later through its source.
Both come to the same bytes: `readsBack_of_ask`.
-/

namespace ModuleSearch

/-- The descriptor of a module is what is read from it: its document, decoded, or what is derived
from a JAR without one. -/
def LocatedModule.IsReadFrom (s : Surroundings) (m : LocatedModule) : Prop :=
  (∃ document, m.source.read s.storage Document.fileName = .ok (some document) ∧
    s.decode document = .ok m.descriptor) ∨
  (∃ path archive, m.source = .packaged path .jar ∧
    m.source.read s.storage Document.fileName = .ok none ∧
      Archive.load s.storage path .jar = .ok archive ∧
        Automatic.descriptor archive = .ok m.descriptor)

/-- What is read from a module is what it was found with: its document or, if it has none, the
archive from which its descriptor was derived. -/
def LocatedModule.ReadsBack (storage : Storage) (m : LocatedModule) : Prop :=
  (m.descriptor.isAutomatic = false ∧ ∃ document,
    m.source.read storage Document.fileName = .ok (some document) ∧
      Descriptor.decode document = .ok m.descriptor) ∨
  (m.descriptor.isAutomatic = true ∧ ∃ path archive, m.source = .packaged path .jar ∧
    m.source.read storage Document.fileName = .ok none ∧
      Archive.load storage path .jar = .ok archive ∧
        Automatic.descriptor archive = .ok m.descriptor)

theorem Snapshot.readsFilesOnly (s : Snapshot) : s.storage.ReadsFilesOnly := by
  intro path content h
  have hsight : ∃ found, s.at? path = some (.file found) := by
    change s.content path = some content at h
    rw [Snapshot.content] at h
    cases hat : s.at? path with
    | none => simp [hat] at h
    | some sight =>
        cases sight with
        | file found => exact ⟨found, rfl⟩
        | directory names => simp [hat] at h
        | other => simp [hat] at h
  obtain ⟨found, hfound⟩ := hsight
  simp only [storage, hfound]

namespace Surroundings

variable {s : Surroundings} {m : LocatedModule}

/-- What a search looks at when documents are decoded as they should be. -/
def reading (storage : Storage) : Surroundings := ⟨storage, Descriptor.decode⟩

theorem decodeAt_eq_ok_iff {path : Path} {document : ByteArray} {d : Descriptor} :
    s.decodeAt path document = .ok d ↔ s.decode document = .ok d :=
  mapError_eq_ok_iff

theorem isReadFrom_of_readPackaged {path : Path} {format : ArchiveFormat}
    (h : s.readPackaged path format = .ok m) : m.IsReadFrom s := by
  simp only [readPackaged, bind_eq_ok_iff] at h
  obtain ⟨archive, hload, d, hdescriptor, hm⟩ := h
  obtain rfl := Except.ok.inj hm
  have hread : ∀ name, Source.read s.storage name (.packaged path format) = archive.read name := by
    intro name
    rw [Source.read, hload]
    rfl
  rw [archiveDescriptor, bind_eq_ok_iff] at hdescriptor
  obtain ⟨_ | document, hdocument, hdescriptor⟩ := hdescriptor
  · -- without a document only a JAR gives a module
    dsimp only at hdescriptor
    split at hdescriptor
    · rename_i hjar
      obtain rfl : format = .jar := (Archive.of_load hload).2.symm.trans hjar
      exact .inr ⟨path, archive, rfl, (hread _).trans hdocument, hload, hdescriptor⟩
    · cases hdescriptor
  · exact .inl ⟨document, (hread _).trans hdocument, decodeAt_eq_ok_iff.mp hdescriptor⟩

theorem isReadFrom_of_readExploded {directory : Path} (hfiles : s.storage.ReadsFilesOnly)
    (h : s.readExploded directory = .ok m) : m.IsReadFrom s := by
  rw [readExploded] at h
  split at h
  · cases h
  · rename_i document hdocument
    obtain ⟨d, hd, rfl⟩ := map_eq_ok_iff.mp h
    refine .inl ⟨document, ?_, decodeAt_eq_ok_iff.mp hd⟩
    have hinside : Source.staysInside Document.fileName = true := by decide
    exact Source.readExploded_eq_some_iff.mpr ⟨hinside, hfiles _ document hdocument, hdocument⟩

theorem indexedName?_eq_some_iff {entry name : String} :
    indexedName? entry = some name ↔
      '/' ∉ name.toList ∧ entry = name ++ "/" ++ Document.fileName := by
  have hentry : entry = name ++ "/" ++ Document.fileName ↔
      entry.toList = name.toList ++ '/' :: Document.fileName.toList := by
    rw [← String.toList_inj, String.toList_append, String.toList_append, List.append_assoc]
    rfl
  rw [hentry, ← Text.cut?_eq_some_iff, indexedName?]
  cases Text.cut? '/' entry.toList with
  | none => simp
  | some cut =>
      obtain ⟨module, rest⟩ := cut
      simp only [Option.ite_none_right_eq_some, Option.some.injEq, Prod.mk.injEq]
      rw [and_comm, ← String.toList_inj, String.toList_ofList]

theorem isReadFrom_of_readImageModule {image : Archive} {path : Path} {entry name : String}
    (hload : Archive.load s.storage path .image = .ok image) (hentry : entry ∈ image.names)
    (hname : indexedName? entry = some name)
    (h : s.readImageModule image name = .ok m) : m.IsReadFrom s := by
  obtain ⟨-, rfl⟩ := indexedName?_eq_some_iff.mp hname
  simp only [readImageModule, bind_eq_ok_iff] at h
  obtain ⟨_ | document, hdocument, d, hd, h⟩ := h
  · exact absurd hdocument (Archive.read_ne_none hentry)
  · split at h
    · obtain rfl := Except.ok.inj h
      refine .inl ⟨document, ?_, decodeAt_eq_ok_iff.mp hd⟩
      rw [(Archive.of_load hload).1, Source.read, hload]
      exact hdocument
    · cases h

theorem isReadFrom_of_readCandidate (hfiles : s.storage.ReadsFilesOnly) {candidate : Candidate}
    (h : s.readCandidate candidate = .ok (some m)) : m.IsReadFrom s := by
  cases candidate with
  | packaged path format =>
      obtain ⟨m', hm', heq⟩ := map_eq_ok_iff.mp h
      obtain rfl := Option.some.inj heq
      exact isReadFrom_of_readPackaged hm'
  | exploded directory =>
      obtain ⟨m', hm', heq⟩ := map_eq_ok_iff.mp h
      obtain rfl := Option.some.inj heq
      exact isReadFrom_of_readExploded hfiles hm'
  | absent path => cases h
  | directory path => cases h
  | unrecognized path => cases h

theorem isReadFrom_of_readCandidates (hfiles : s.storage.ReadsFilesOnly) {directory : Path}
    {before : List (String × Path)} {candidates : List Candidate} {modules : List LocatedModule}
    (h : s.readCandidates directory before candidates = .ok modules) :
    ∀ m ∈ modules, m.IsReadFrom s := by
  induction candidates generalizing before modules with
  | nil =>
      obtain rfl : [] = modules := Except.ok.inj h
      simp
  | cons candidate rest ih =>
      rw [readCandidates, bind_eq_ok_iff] at h
      obtain ⟨_ | m, hm, h⟩ := h
      · exact ih h
      · dsimp only at h
        split at h
        · cases h
        · obtain ⟨others, hothers, hmodules⟩ := bind_eq_ok_iff.mp h
          obtain rfl : m :: others = modules := Except.ok.inj hmodules
          exact List.forall_mem_cons.mpr ⟨isReadFrom_of_readCandidate hfiles hm, ih hothers⟩

theorem isReadFrom_of_scan (hfiles : s.storage.ReadsFilesOnly) {entry : Path}
    {modules : List LocatedModule} (h : s.scan entry = .ok modules) :
    ∀ m ∈ modules, m.IsReadFrom s := by
  obtain ⟨candidate, -, h⟩ := bind_eq_ok_iff.mp h
  have hone : (s.readCandidate candidate).map Option.toList = .ok modules →
      ∀ m ∈ modules, m.IsReadFrom s := by
    intro hmap m hm
    obtain ⟨found, hfound, rfl⟩ := map_eq_ok_iff.mp hmap
    rw [Option.mem_toList.mp hm] at hfound
    exact isReadFrom_of_readCandidate hfiles hfound
  cases candidate with
  | packaged path format => exact hone h
  | exploded directory => exact hone h
  | directory directory =>
      obtain ⟨candidates, -, h⟩ := bind_eq_ok_iff.mp h
      exact isReadFrom_of_readCandidates hfiles h
  | absent path =>
      obtain rfl : [] = modules := Except.ok.inj h
      simp
  | unrecognized path => cases h

theorem scansOnly_isReadFrom (hfiles : s.storage.ReadsFilesOnly) :
    s.ScansOnly (LocatedModule.IsReadFrom s) := by
  intro scan modules h
  cases scan with
  | entry path => exact isReadFrom_of_scan hfiles h
  | image path =>
      obtain ⟨image, hload, h⟩ := bind_eq_ok_iff.mp h
      intro m hm
      obtain ⟨name, hname, hread⟩ := (mem_of_mapM_eq_ok h).mp hm
      obtain ⟨entry, hentry, hindexed⟩ := List.mem_filterMap.mp hname
      exact isReadFrom_of_readImageModule hload hentry hindexed hread

end Surroundings

/-- A document does not describe a derived module, so a descriptor tells where it comes from. -/
theorem LocatedModule.IsReadFrom.readsBack {storage : Storage} {m : LocatedModule}
    (h : m.IsReadFrom (.reading storage)) : m.ReadsBack storage := by
  obtain ⟨document, hread, hdecode⟩ | ⟨path, archive, hsource, hread, hload, hderived⟩ := h
  · exact .inl ⟨Descriptor.isAutomatic_of_decode hdecode, document, hread, hdecode⟩
  · obtain ⟨derived, -, hdescribes⟩ := Automatic.describes_of_descriptor hderived
    exact .inr ⟨hdescribes.isAutomatic, path, archive, hsource, hread, hload, hderived⟩

/-- As long as the files do not change, reading a module that a query answers gives back the
descriptor with which it was found. -/
theorem readsBack_of_ask {storage : Storage} (hfiles : storage.ReadsFilesOnly) {c : Catalog}
    (h : c.ReachableIn (.reading storage)) {q : Query} {answer : Answer}
    (hanswer : (c.ask (.reading storage) q).1 = .ok answer) :
    ∀ m ∈ answer.modules, m.ReadsBack storage := by
  have hscans : (Surroundings.reading storage).ScansOnly (LocatedModule.IsReadFrom _) :=
    Surroundings.scansOnly_isReadFrom hfiles
  exact fun m hm => (Catalog.forall_modules_of_ask hscans h hanswer m hm).readsBack

/-- A zip file without entries. -/
def Zip.emptyBytes : ByteArray := ⟨#[0x50, 0x4B, 5, 6] ++ Array.replicate 18 0⟩

/-- A directory with a document, and a JAR without one. -/
def Snapshot.sample : Snapshot :=
  .ofList [("/m", .directory (some ["module-info.json"])),
    ("/m/module-info.json", .file (some "\x7b\"name\":\"m\"\x7d".toUTF8)),
    ("/n-2.jar", .file (some Zip.emptyBytes))]

/-- The module that is derived from the JAR in `Snapshot.sample`. -/
def LocatedModule.derivedSample : LocatedModule :=
  ⟨⟨"n", some "2", NameMap.empty.insert "java.base" (Modifiers.none.add .mandated), .empty, .empty,
    none, true⟩, .packaged ⟨"/n-2.jar"⟩ .jar⟩

theorem readsBack_of_ask_sample :
    let s := Surroundings.reading Snapshot.sample.storage
    let c := Catalog.ofEntries [⟨"/n-2.jar"⟩, ⟨"/m"⟩]
    (c.ask s .findAll).1 = .ok (.all [.sample, .derivedSample]) ∧
      LocatedModule.sample.ReadsBack Snapshot.sample.storage ∧
      LocatedModule.derivedSample.ReadsBack Snapshot.sample.storage := by
  intro s c
  have hc : c.ReachableIn s := .ofEntries _
  have hanswer : (c.ask s .findAll).1 = .ok (.all [.sample, .derivedSample]) := by decide +kernel
  have hall := readsBack_of_ask (Snapshot.readsFilesOnly _) hc hanswer
  exact ⟨hanswer, hall _ (by simp [Answer.modules]), hall _ (by simp [Answer.modules])⟩

end ModuleSearch
