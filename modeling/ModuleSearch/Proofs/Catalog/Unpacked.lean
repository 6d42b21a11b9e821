import ModuleSearch.Proofs.Catalog.Completion
import ModuleSearch.Proofs.Catalog.Eager
import ModuleSearch.Proofs.Module.ImageFiles

/-!
# Packed and unpacked installations

The files of a packed image, unpacked into the directory of modules of an installation, give the
modules that the image gives, each with its descriptor and in the same order: `catalog_unpacked`.
-/

namespace ModuleSearch

namespace LocatedModule

/-- The module as it lies in a directory of modules. -/
def unpackedAt (directory : Path) (m : LocatedModule) : LocatedModule :=
  ⟨m.descriptor, .exploded (directory.child m.name)⟩

@[simp] theorem name_unpackedAt (directory : Path) (m : LocatedModule) :
    (m.unpackedAt directory).name = m.name := rfl

end LocatedModule

def Answer.unpackedAt (directory : Path) : Answer → Answer
  | one m => one (m.map (.unpackedAt directory))
  | all modules => all (modules.map (.unpackedAt directory))

namespace Modules

variable {modules : List LocatedModule} {found found' : Modules} {directory : Path}

/-- If names tell modules apart, all of them are found. -/
theorem get?_addAllNew_empty (hnames : ∀ m ∈ modules, ∀ n ∈ modules, m.name = n.name → m = n)
    {name : String} {m : LocatedModule} :
    (empty.addAllNew modules).get? name = some m ↔ m ∈ modules ∧ m.name = name := by
  rw [get?_addAllNew, get?_empty, Option.none_or]
  constructor
  · intro h
    exact ⟨List.mem_of_find?_eq_some h, by simpa using List.find?_some h⟩
  · rintro ⟨hm, rfl⟩
    cases h : modules.find? fun n => n.name == m.name with
    | none => exact absurd (List.find?_eq_none.mp h m hm) (by simp)
    | some n =>
        have hname : n.name = m.name := by simpa using List.find?_some h
        rw [hnames n (List.mem_of_find?_eq_some h) m hm hname]

theorem toList_unpackedAt
    (h : ∀ name, found'.get? name = (found.get? name).map (.unpackedAt directory)) :
    found'.toList = found.toList.map (.unpackedAt directory) := by
  refine eq_of_ascending found'.toList_ascending ?_ fun m => ?_
  · exact List.pairwise_map.mpr found.toList_ascending
  · rw [mem_toList, h, Option.map_eq_some_iff, List.mem_map]
    refine exists_congr fun n => and_congr_left fun hn => ?_
    rw [mem_toList, ← hn, LocatedModule.name_unpackedAt]

theorem answer_unpackedAt
    (h : ∀ name, found'.get? name = (found.get? name).map (.unpackedAt directory)) (q : Query) :
    found'.answer q = (found.answer q).unpackedAt directory := by
  cases q with
  | find name => exact congrArg Answer.one (h name)
  | findAll => exact congrArg Answer.all (toList_unpackedAt h)

/-- The modules that files describe, each at a place that its name gives. -/
theorem get?_of_describes (place : String → Source) {modules : List LocatedModule}
    {files : NameMap ByteArray} {decode : Decoder}
    (hmem : ∀ m, m ∈ modules ↔ m.source = place m.name ∧ files.Describes decode m.descriptor)
    {name : String} {m : LocatedModule} :
    (empty.addAllNew modules).get? name = some m ↔
      (m.source = place m.name ∧ files.Describes decode m.descriptor) ∧ m.name = name := by
  rw [get?_addAllNew_empty, hmem]
  intro m hm n hn hname
  obtain ⟨hsource, hd⟩ := (hmem m).mp hm
  obtain ⟨hsource', hd'⟩ := (hmem n).mp hn
  rw [LocatedModule.mk.injEq, hsource, hsource', hname]
  exact ⟨hd.unique hd' hname, rfl⟩

end Modules

namespace Catalog

variable {s s' : Surroundings} {image directory : Path} {files : NameMap ByteArray} {a : Archive}
  {listing modules : List LocatedModule}

theorem survey_ofImage (h : s.scanImage image = .ok modules) :
    Chain.survey s (ofImage image).scanners = ⟨.addAllNew .empty modules, none⟩ := by
  change Survey.followedBy (Scanner.surveyFrom s .empty [.image image]) .nothing = _
  rw [Survey.followedBy_nothing, Scanner.surveyFrom, Scan.run, h]
  rfl

theorem survey_ofEntry (h : s.scan directory = .ok modules) :
    Chain.survey s (ofEntries [directory]).scanners = ⟨.addAllNew .empty modules, none⟩ := by
  change Survey.followedBy (Scanner.surveyFrom s .empty [.entry directory]) .nothing = _
  rw [Survey.followedBy_nothing, Scanner.surveyFrom, Scan.run, h]
  rfl

/-- A catalog of one part that can be read answers every query, whatever was asked before. -/
theorem answers_of_survey {c : Catalog} (hc : c.Reachable) {scanner : Scanner}
    (hscanner : c.scanners = [scanner]) {found : Modules}
    (hsurvey : Chain.survey s c.scanners = ⟨found, none⟩) (queries : List Query) :
    c.answers (queries.map (Step.mk s)) = queries.map fun q => .ok (found.answer q) := by
  rw [hscanner] at hsurvey
  rw [answers_eq hc, hscanner, answersOf_single, hsurvey, funext (answer_of_success found)]
  exact untilError_of_success found.answer queries

/-- An image and a directory with its files give the same modules, if the image can be read. -/
theorem exists_unpacked (hdecode : s'.decode = s.decode) (hlegal : s.decode.Legal)
    (hload : Archive.load s.storage image .image = .ok a) (hpacked : a.zip.Holds "" files)
    (hunpacked : s'.storage.HoldsImage directory files)
    (hall : ((ofImage image).findAll s).1 = .ok listing) :
    ∃ found found' : Modules, Chain.survey s (ofImage image).scanners = ⟨found, none⟩ ∧
      Chain.survey s' (ofEntries [directory]).scanners = ⟨found', none⟩ ∧
      ∀ name, found'.get? name = (found.get? name).map (.unpackedAt directory) := by
  obtain ⟨modules, hscan⟩ : ∃ modules, s.scanImage image = .ok modules := by
    cases hscan : s.scanImage image with
    | ok modules => exact ⟨modules, rfl⟩
    | error e => simp [ofImage, findAll, ImageState.index, hscan, Except.map] at hall
  obtain ⟨hmem, hdescribed⟩ := Surroundings.of_scanImage hload hpacked hscan
  obtain ⟨modules', hscan', hmem'⟩ := Surroundings.exists_scan hunpacked (hdecode ▸ hlegal)
    (hdecode ▸ hdescribed)
  rw [hdecode] at hmem'
  refine ⟨_, _, survey_ofImage hscan, survey_ofEntry hscan', fun name => Option.ext fun m' => ?_⟩
  rw [Modules.get?_of_describes (fun name => .exploded (directory.child name)) hmem',
    Option.map_eq_some_iff]
  simp only [Modules.get?_of_describes (.image image) hmem]
  constructor
  · rintro ⟨⟨hsource, hd⟩, hname⟩
    exact ⟨⟨m'.descriptor, .image image m'.name⟩, ⟨⟨rfl, hd⟩, hname⟩, by
      rw [LocatedModule.unpackedAt, LocatedModule.mk.injEq, hsource]
      exact ⟨rfl, rfl⟩⟩
  · rintro ⟨m, ⟨⟨-, hd⟩, hname⟩, rfl⟩
    exact ⟨⟨rfl, hd⟩, hname⟩

end Catalog

/-- The files of an image that can be read, unpacked into the directory of modules of an
installation, give the modules of the image with their descriptors, in the same order and under the
same names. -/
theorem Installation.catalog_unpacked {s s' : Surroundings} {image home : Path}
    {permits : Path → Bool} {files : NameMap ByteArray} {a : Archive}
    {listing : List LocatedModule} (hdecode : s'.decode = s.decode) (hlegal : s.decode.Legal)
    (hload : Archive.load s.storage image .image = .ok a) (hpacked : a.zip.Holds "" files)
    (hunpacked : s'.storage.HoldsImage (directoryPath home) files)
    (hlayout : layout s'.storage permits home = .ok .directory)
    (hall : ((Catalog.ofImage image).findAll s).1 = .ok listing) :
    ∃ c, catalog s'.storage permits home = .ok c ∧
      (c.findAll s').1 = .ok (listing.map (.unpackedAt (directoryPath home))) ∧
      (∀ name, (c.find s' name).1 = ((Catalog.ofImage image).find s name).1.map
        (Option.map (.unpackedAt (directoryPath home)))) ∧
      ∀ queries : List Query, c.answers (queries.map (Step.mk s')) =
        ((Catalog.ofImage image).answers (queries.map (Step.mk s))).map
          (Except.map (.unpackedAt (directoryPath home))) := by
  obtain ⟨found, found', hsurvey, hsurvey', hget⟩ :=
    Catalog.exists_unpacked hdecode hlegal hload hpacked hunpacked hall
  have hlisting : listing = found.toList := by
    rw [Catalog.findAll_eq_all (Catalog.wellFormed_of_reachable (.ofImage image)), hsurvey] at hall
    exact (Except.ok.inj hall).symm
  refine ⟨.ofEntries [directoryPath home], by rw [catalog, hlayout]; rfl, ?_, fun name => ?_,
    fun queries => ?_⟩
  · rw [Catalog.findAll_eq_all (Catalog.wellFormed_of_reachable (.ofEntries _)), hsurvey',
      hlisting, ← Modules.toList_unpackedAt hget]
    rfl
  · rw [Catalog.find_eq_lookup, Catalog.find_eq_lookup, hsurvey, hsurvey',
      Survey.lookup_of_success rfl, Survey.lookup_of_success rfl, hget]
    rfl
  · rw [Catalog.answers_of_survey (.ofEntries _) rfl hsurvey',
      Catalog.answers_of_survey (.ofImage _) rfl hsurvey, List.map_map]
    exact List.map_congr_left fun q _ => congrArg _ (Modules.answer_unpackedAt hget q)

/-- The files of an image with a module, and with a directory that is hidden. -/
def NameMap.imageSample (document : ByteArray) : NameMap ByteArray :=
  .ofList [(".h/A", .empty), ("m/module-info.json", document)]

def Document.sample : ByteArray := "\x7b\"name\":\"m\"\x7d".toUTF8

def Zip.installationSample : ByteArray := pack (NameMap.imageSample Document.sample).entries

namespace Volume

/-- An installation with an image. -/
def packedSample (image : ByteArray) : Volume := .ofFiles [(⟨"/jdk/lib/modules"⟩, image)] []

/-- An installation with the files of the image. -/
def unpackedSample (document : ByteArray) : Volume :=
  .ofFiles [(⟨"/jdk/modules/.h/A"⟩, .empty), (⟨"/jdk/modules/m/module-info.json"⟩, document)] []

theorem read_packedSample (image : ByteArray) :
    (packedSample image).storage.read ⟨"/jdk/lib/modules"⟩ = some image := by
  cbv

theorem nodeAt?_unpackedSample (document : ByteArray) :
    (unpackedSample document).nodeAt? ⟨"/jdk/modules"⟩ = some (.directory
      [(".h", .directory [("A", .file .empty)]),
        ("m", .directory [("module-info.json", .file document)])]) := by
  cbv

theorem holdsImage_unpackedSample :
    (unpackedSample Document.sample).storage.HoldsImage ⟨"/jdk/modules"⟩
      (.imageSample Document.sample) := by
  have hv : (unpackedSample Document.sample).WellFormed :=
    wellFormed_ofFiles (by decide +kernel) (by decide +kernel)
  have hfiles : (unpackedSample Document.sample).resources ⟨"/jdk/modules"⟩ =
      .imageSample Document.sample := by
    decide +kernel
  have honly := holdsOnly (p := ⟨"/jdk/modules"⟩) hv (by decide +kernel) (by decide +kernel)
    fun n hn => by
      rw [nodeAt?_unpackedSample, Option.mem_some] at hn
      simp [← hn, Node.children, Node.dense_directory_iff, Node.Dense.file]
  rw [hfiles] at honly
  exact { honly with lawful := lawful hv, isImageEntry := by decide +kernel }

end Volume

namespace Surroundings

def packedSample : Surroundings := reading (Volume.packedSample Zip.installationSample).storage

def unpackedSample : Surroundings := reading (Volume.unpackedSample Document.sample).storage

theorem load_packedSample :
    ∃ a, Archive.load packedSample.storage ⟨"/jdk/lib/modules"⟩ .image = .ok a ∧
      a.zip.Holds "" (.imageSample Document.sample) := by
  have hread : packedSample.storage.read ⟨"/jdk/lib/modules"⟩ = some Zip.installationSample :=
    Volume.read_packedSample _
  rw [Archive.load, hread]
  decide +kernel

end Surroundings

theorem Catalog.findAll_packedSample :
    ((ofImage ⟨"/jdk/lib/modules"⟩).findAll .packedSample).1 =
      .ok [⟨LocatedModule.sample.descriptor, .image ⟨"/jdk/lib/modules"⟩ "m"⟩] := by
  decide +kernel

theorem Installation.catalog_unpacked_sample :
    Surroundings.packedSample.decode.Legal ∧
      (∃ a, Archive.load Surroundings.packedSample.storage ⟨"/jdk/lib/modules"⟩ .image = .ok a ∧
        a.zip.Holds "" (.imageSample Document.sample)) ∧
      Surroundings.unpackedSample.storage.HoldsImage (directoryPath ⟨"/jdk"⟩)
        (.imageSample Document.sample) ∧
      layout Surroundings.unpackedSample.storage permitsAll ⟨"/jdk"⟩ = .ok .directory ∧
      ((Catalog.ofImage ⟨"/jdk/lib/modules"⟩).findAll .packedSample).1 =
        .ok [⟨LocatedModule.sample.descriptor, .image ⟨"/jdk/lib/modules"⟩ "m"⟩] ∧
      ∃ c, catalog Surroundings.unpackedSample.storage permitsAll ⟨"/jdk"⟩ = .ok c ∧
        (c.findAll .unpackedSample).1 =
          .ok [⟨LocatedModule.sample.descriptor, .exploded ⟨"/jdk/modules/m"⟩⟩] := by
  have hlegal : Surroundings.packedSample.decode.Legal := Descriptor.legal_decode
  obtain ⟨a, hload, hpacked⟩ := Surroundings.load_packedSample
  have hunpacked : Surroundings.unpackedSample.storage.HoldsImage (directoryPath ⟨"/jdk"⟩)
      (.imageSample Document.sample) := Volume.holdsImage_unpackedSample
  have hlayout : layout Surroundings.unpackedSample.storage permitsAll ⟨"/jdk"⟩ =
      .ok .directory := by
    decide +kernel
  have hdecode : Surroundings.unpackedSample.decode = Surroundings.packedSample.decode := rfl
  obtain ⟨c, hc, hlisting, -⟩ :=
    catalog_unpacked hdecode hlegal hload hpacked hunpacked hlayout Catalog.findAll_packedSample
  refine ⟨hlegal, ⟨a, hload, hpacked⟩, hunpacked, hlayout,
    Catalog.findAll_packedSample, c, hc, hlisting.trans ?_⟩
  decide +kernel

end ModuleSearch
