import ModuleSearch.Proofs.Catalog.Unpacked

/-!
# The index of an image

The first query on an image reads all its descriptors: `answers_ofImage`. It succeeds exactly if
all of them are in order, and fails with the error of the first in the archive's directory that is
not. What else is in the image does not matter.
-/

namespace ModuleSearch

namespace Zip

variable {z : Zip} {e : Entry} {name module : String}

/-- The entry lies where the descriptor of a module should be, directly in the directory of its
name. -/
def Entry.IsDescriptorOf (e : Entry) (module : String) : Prop :=
  '/' ∉ module.toList ∧ e.name = Document.entryOf module

def Entry.moduleName? (e : Entry) : Option String := Surroundings.indexedName? e.name

theorem Entry.moduleName?_eq_some_iff : e.moduleName? = some module ↔ e.IsDescriptorOf module :=
  Surroundings.indexedName?_eq_some_iff

def Entry.IsDescriptor (e : Entry) : Prop := ∃ module, e.IsDescriptorOf module

theorem Entry.isDescriptor_iff : e.IsDescriptor ↔ e.moduleName?.isSome = true := by
  simp only [IsDescriptor, ← moduleName?_eq_some_iff, Option.isSome_iff_exists]

instance (e : Entry) : Decidable e.IsDescriptor := decidable_of_iff _ Entry.isDescriptor_iff.symm

/-- What can be read of an image's descriptors, in the order of its directory. -/
def descriptors (z : Zip) : List (String × Except ReadFault ByteArray) :=
  (z.entries.filter fun e => e.IsDescriptor).map fun e => (e.name, z.readEntry e)

/-- The entry holds a descriptor. -/
def Describes (z : Zip) (decode : Decoder) (e : Entry) (d : Descriptor) : Prop :=
  ∃ document, z.readEntry e = .ok document ∧ decode document = .ok d

/-- Each descriptor among the entries is that of the module in whose directory it lies. -/
def InOrder (z : Zip) (decode : Decoder) (entries : List Entry) : Prop :=
  ∀ e ∈ entries, ∀ module, e.IsDescriptorOf module → ∃ d, z.Describes decode e d ∧ d.name = module

/-- The error for an entry that does not hold the descriptor of the module. -/
inductive Misdescribes (z : Zip) (decode : Decoder) (image : Path) (e : Entry) (module : String) :
    SearchError → Prop
  | unsupported (h : z.readEntry e = .error .unsupported) :
      Misdescribes z decode image e module (.badArchive image)
  | corrupt (h : z.readEntry e = .error .corrupt) :
      Misdescribes z decode image e module (.unreadable image)
  | undecodable {document : ByteArray} {problem : DescriptorError}
      (hread : z.readEntry e = .ok document) (hdecode : decode document = .error problem) :
      Misdescribes z decode image e module (.badDescriptor (image.join ⟨e.name⟩) problem)
  | otherModule {document : ByteArray} {d : Descriptor} (hread : z.readEntry e = .ok document)
      (hdecode : decode document = .ok d) (hname : d.name ≠ module) :
      Misdescribes z decode image e module (.malformed image (.otherModule e.name d.name))

theorem mem_descriptors {descriptor : String × Except ReadFault ByteArray} :
    descriptor ∈ z.descriptors ↔
      ∃ e ∈ z.entries, e.IsDescriptor ∧ (e.name, z.readEntry e) = descriptor := by
  simp only [descriptors, List.mem_map, List.mem_filter, decide_eq_true_eq, and_assoc]

theorem filterMap_moduleName? (z : Zip) : z.entries.filterMap Entry.moduleName? =
    z.descriptors.filterMap fun d => Surroundings.indexedName? d.1 := by
  rw [descriptors, List.filterMap_map, List.filterMap_filter]
  refine List.filterMap_congr fun e _ => ?_
  split
  · rfl
  · rename_i hnot
    simpa [Entry.isDescriptor_iff] using hnot

theorem eq_of_isDescriptorOf {e' : Entry} (he : e ∈ z.entries) (he' : e' ∈ z.entries)
    (h : e.IsDescriptorOf module) (h' : e'.IsDescriptorOf module) : e = e' :=
  eq_of_name_eq he he' (h.2.trans h'.2.symm)

theorem Describes.unique {decode : Decoder} {d d' : Descriptor} (h : z.Describes decode e d)
    (h' : z.Describes decode e d') : d = d' := by
  obtain ⟨document, hread, hd⟩ := h
  obtain ⟨document', hread', hd'⟩ := h'
  obtain rfl := Except.ok.inj (hread.symm.trans hread')
  exact Except.ok.inj (hd.symm.trans hd')

end Zip

namespace Archive

variable {a : Archive} {e : Zip.Entry} {module : String}

/-- The directories in an image that have descriptors. -/
theorem filterMap_indexedName?_names (hformat : a.format = .image) :
    a.names.filterMap Surroundings.indexedName? =
      a.zip.entries.filterMap Zip.Entry.moduleName? := by
  rw [names, hformat, List.filterMap_filterMap, Zip.names, List.filterMap_map]
  refine List.filterMap_congr fun e _ => Option.ext fun module => ?_
  rw [Function.comp_apply, Option.bind_eq_some_iff, Zip.Entry.moduleName?]
  simp only [contentName?_eq_some_iff, ArchiveFormat.contentPrefix, String.empty_append]
  constructor
  · rintro ⟨_, ⟨-, rfl⟩, h⟩
    exact h
  · intro h
    have hname := (Surroundings.indexedName?_eq_some_iff.mp h).2
    exact ⟨e.name, ⟨hname ▸ Document.isFileName_entryOf module, rfl⟩, h⟩

theorem read_eq_of_mem (hformat : a.format = .image) (he : e ∈ a.zip.entries) :
    a.read e.name =
      match a.zip.readEntry e with
      | .ok document => .ok (some document)
      | .error .unsupported => .error (.badArchive a.path)
      | .error .corrupt => .error (.unreadable a.path) :=
  read_of_mem_entries he (by rw [hformat, ArchiveFormat.contentPrefix, String.empty_append])

end Archive

namespace Surroundings

variable {s s' : Surroundings} {image : Path} {a a' : Archive} {e : Zip.Entry} {module : String}
  {modules : List LocatedModule}

theorem readImageModule_eq_ok_iff_describes (he : e ∈ a.zip.entries)
    (hformat : a.format = .image) (hmodule : e.IsDescriptorOf module) {m : LocatedModule} :
    s.readImageModule a module = .ok m ↔ m.name = module ∧ m.source = .image a.path module ∧
      a.zip.Describes s.decode e m.descriptor := by
  have hread := Archive.read_eq_of_mem hformat he
  rw [hmodule.2] at hread
  cases hentry : a.zip.readEntry e with
  | ok document =>
      rw [hentry] at hread
      rw [readImageModule_eq_ok_iff_of_read hread]
      simp only [Zip.Describes, hentry, Except.ok.injEq, exists_eq_left']
  | error fault =>
      have hfault : ∃ err, a.read (Document.entryOf module) = .error err := by
        rw [hread, hentry]
        cases fault <;> exact ⟨_, rfl⟩
      obtain ⟨err, herr⟩ := hfault
      rw [readImageModule_of_error herr]
      simp [Zip.Describes, hentry]

theorem misdescribes_of_readImageModule (he : e ∈ a.zip.entries) (hformat : a.format = .image)
    (hmodule : e.IsDescriptorOf module) {err : SearchError}
    (h : s.readImageModule a module = .error err) :
    a.zip.Misdescribes s.decode a.path e module err := by
  have hread := Archive.read_eq_of_mem hformat he
  rw [hmodule.2] at hread
  cases hentry : a.zip.readEntry e with
  | error fault =>
      rw [hentry] at hread
      cases fault with
      | unsupported =>
          rw [readImageModule_of_error hread] at h
          obtain rfl := Except.error.inj h
          exact .unsupported hentry
      | corrupt =>
          rw [readImageModule_of_error hread] at h
          obtain rfl := Except.error.inj h
          exact .corrupt hentry
  | ok document =>
      rw [hentry] at hread
      rw [readImageModule_of_read hread, ← hmodule.2] at h
      cases hdecode : s.decode document with
      | error problem =>
          rw [hdecode] at h
          obtain rfl := Except.error.inj h
          exact .undecodable hentry hdecode
      | ok d =>
          rw [hdecode] at h
          dsimp only at h
          split at h
          · cases h
          · rename_i hname
            obtain rfl := Except.error.inj h
            exact .otherModule hentry hdecode hname

/-- An image is read by reading the directories with descriptors one after the other. -/
theorem scanImage_eq_mapM (hload : Archive.load s.storage image .image = .ok a) :
    s.scanImage image =
      (a.zip.entries.filterMap Zip.Entry.moduleName?).mapM (s.readImageModule a) := by
  rw [scanImage, hload]
  change (a.names.filterMap indexedName?).mapM _ = _
  rw [Archive.filterMap_indexedName?_names (Archive.of_load hload).2]

theorem inOrder_iff (hformat : a.format = .image) {entries : List Zip.Entry}
    (hentries : entries ⊆ a.zip.entries) : a.zip.InOrder s.decode entries ↔
      ∀ module ∈ entries.filterMap Zip.Entry.moduleName?,
        ∃ m, s.readImageModule a module = .ok m := by
  constructor
  · intro h module hmem
    obtain ⟨e, he, hmodule⟩ := List.mem_filterMap.mp hmem
    have hmodule := Zip.Entry.moduleName?_eq_some_iff.mp hmodule
    obtain ⟨d, hdescribes, hname⟩ := h e he module hmodule
    exact ⟨⟨d, .image a.path module⟩,
      (readImageModule_eq_ok_iff_describes (hentries he) hformat hmodule).mpr
        ⟨hname, rfl, hdescribes⟩⟩
  · intro h e he module hmodule
    obtain ⟨m, hm⟩ := h module
      (List.mem_filterMap.mpr ⟨e, he, Zip.Entry.moduleName?_eq_some_iff.mpr hmodule⟩)
    obtain ⟨hname, -, hdescribes⟩ :=
      (readImageModule_eq_ok_iff_describes (hentries he) hformat hmodule).mp hm
    exact ⟨m.descriptor, hdescribes, hname⟩

theorem exists_scanImage_iff (hload : Archive.load s.storage image .image = .ok a) :
    (∃ modules, s.scanImage image = .ok modules) ↔ a.zip.InOrder s.decode a.zip.entries := by
  rw [scanImage_eq_mapM hload, exists_mapM_eq_ok_iff,
    inOrder_iff (Archive.of_load hload).2 (List.Subset.refl _)]

/-- The error is that of the first entry that is not in order. -/
theorem exists_misdescribes_of_scanImage (hload : Archive.load s.storage image .image = .ok a)
    {err : SearchError} (h : s.scanImage image = .error err) :
    ∃ before e after module, a.zip.entries = before ++ e :: after ∧
      a.zip.InOrder s.decode before ∧ e.IsDescriptorOf module ∧
      a.zip.Misdescribes s.decode image e module err := by
  obtain ⟨rfl, hformat⟩ := Archive.of_load hload
  rw [scanImage_eq_mapM hload] at h
  obtain ⟨names, module, names', hnames, hbefore, herr⟩ := exists_first_of_mapM_eq_error h
  obtain ⟨before, rest, hentries, rfl, hrest⟩ := List.filterMap_eq_append_iff.mp hnames
  obtain ⟨between, e, after, rfl, hbetween, hmodule, -⟩ := List.filterMap_eq_cons_iff.mp hrest
  have hmodule := Zip.Entry.moduleName?_eq_some_iff.mp hmodule
  -- what lies between the last descriptor that is read and the bad one is no descriptor
  have hsplit : a.zip.entries = (before ++ between) ++ e :: after := by simp [hentries]
  refine ⟨before ++ between, e, after, module, hsplit, ?_, hmodule,
    misdescribes_of_readImageModule (by simp [hsplit]) hformat hmodule herr⟩
  rw [inOrder_iff hformat (by simp [hsplit]), List.filterMap_append,
    List.filterMap_eq_nil_iff.mpr hbetween, List.append_nil]
  exact hbefore

theorem mem_scanImage_iff (hload : Archive.load s.storage image .image = .ok a)
    (h : s.scanImage image = .ok modules) {m : LocatedModule} :
    m ∈ modules ↔ m.source = .image image m.name ∧
      ∃ e ∈ a.zip.entries, e.IsDescriptorOf m.name ∧ a.zip.Describes s.decode e m.descriptor := by
  obtain ⟨rfl, hformat⟩ := Archive.of_load hload
  rw [scanImage_eq_mapM hload] at h
  simp only [mem_of_mapM_eq_ok h, List.mem_filterMap, Zip.Entry.moduleName?_eq_some_iff]
  constructor
  · rintro ⟨module, ⟨e, he, hmodule⟩, hread⟩
    obtain ⟨rfl, hsource, hdescribes⟩ :=
      (readImageModule_eq_ok_iff_describes he hformat hmodule).mp hread
    exact ⟨hsource, e, he, hmodule, hdescribes⟩
  · rintro ⟨hsource, e, he, hmodule, hdescribes⟩
    exact ⟨m.name, ⟨e, he, hmodule⟩,
      (readImageModule_eq_ok_iff_describes he hformat hmodule).mpr ⟨rfl, hsource, hdescribes⟩⟩

/-- An image is read in the same way whatever lies beside its descriptors. -/
theorem scanImage_eq_of_descriptors (hload : Archive.load s.storage image .image = .ok a)
    (hload' : Archive.load s'.storage image .image = .ok a') (hdecode : s'.decode = s.decode)
    (h : a'.zip.descriptors = a.zip.descriptors) : s'.scanImage image = s.scanImage image := by
  obtain ⟨hpath, hformat⟩ := Archive.of_load hload
  obtain ⟨hpath', hformat'⟩ := Archive.of_load hload'
  rw [scanImage_eq_mapM hload, scanImage_eq_mapM hload', a.zip.filterMap_moduleName?,
    a'.zip.filterMap_moduleName?, h, ← a.zip.filterMap_moduleName?]
  refine mapM_congr fun module hmem => ?_
  obtain ⟨e, he, hmodule⟩ := List.mem_filterMap.mp hmem
  have hmodule := Zip.Entry.moduleName?_eq_some_iff.mp hmodule
  -- the other archive has an entry of this name and content
  have hmem : (e.name, a.zip.readEntry e) ∈ a'.zip.descriptors := by
    rw [h, Zip.mem_descriptors]
    exact ⟨e, he, ⟨module, hmodule⟩, rfl⟩
  obtain ⟨e', he', -, heq⟩ := Zip.mem_descriptors.mp hmem
  obtain ⟨hname, hcontent⟩ := Prod.mk.inj heq
  have hread : a'.read (Document.entryOf module) = a.read (Document.entryOf module) := by
    rw [← hmodule.2, Archive.read_eq_of_mem hformat he, ← hname,
      Archive.read_eq_of_mem hformat' he', hcontent, hpath, hpath']
  rw [Document.entryOf] at hread
  simp only [readImageModule, decodeAt, hread, hdecode, hpath, hpath']

end Surroundings

/-- The modules are those of an image, one for each descriptor. -/
structure Modules.IsIndexOf (found : Modules) (z : Zip) (decode : Decoder) (image : Path) :
    Prop where
  isSome_iff : ∀ module, (found.get? module).isSome = true ↔
    ∃ e ∈ z.entries, e.IsDescriptorOf module
  eq_some_iff : ∀ module m, found.get? module = some m ↔
    m.name = module ∧ m.source = .image image module ∧
      ∃ e ∈ z.entries, e.IsDescriptorOf module ∧ z.Describes decode e m.descriptor

namespace Catalog

variable {s s' : Surroundings} {image : Path} {a a' : Archive} {modules : List LocatedModule}

theorem isIndexOf_of_scanImage (hload : Archive.load s.storage image .image = .ok a)
    (h : s.scanImage image = .ok modules) :
    (Modules.addAllNew .empty modules).IsIndexOf a.zip s.decode image := by
  have hmem := fun m => Surroundings.mem_scanImage_iff hload h (m := m)
  have hinOrder := (Surroundings.exists_scanImage_iff hload).mp ⟨modules, h⟩
  have hnames : ∀ m ∈ modules, ∀ n ∈ modules, m.name = n.name → m = n := by
    intro m hm n hn hname
    obtain ⟨hsource, e, he, hmodule, hdescribes⟩ := (hmem m).mp hm
    obtain ⟨hsource', e', he', hmodule', hdescribes'⟩ := (hmem n).mp hn
    rw [hname] at hmodule
    obtain rfl := Zip.eq_of_isDescriptorOf he he' hmodule hmodule'
    rw [LocatedModule.mk.injEq, hsource, hsource', hname]
    exact ⟨hdescribes.unique hdescribes', rfl⟩
  have heq : ∀ module m, (Modules.addAllNew .empty modules).get? module = some m ↔
      m.name = module ∧ m.source = .image image module ∧
        ∃ e ∈ a.zip.entries, e.IsDescriptorOf module ∧
          a.zip.Describes s.decode e m.descriptor := by
    intro module m
    rw [Modules.get?_addAllNew_empty hnames, hmem, and_comm]
    exact and_congr_right fun hname => by rw [hname]
  refine ⟨fun module => ?_, heq⟩
  rw [Option.isSome_iff_exists]
  constructor
  · rintro ⟨m, hm⟩
    obtain ⟨-, -, e, he, hmodule, -⟩ := (heq module m).mp hm
    exact ⟨e, he, hmodule⟩
  · rintro ⟨e, he, hmodule⟩
    obtain ⟨d, hdescribes, hname⟩ := hinOrder e he module hmodule
    exact ⟨⟨d, .image image module⟩, (heq module _).mpr ⟨hname, rfl, e, he, hmodule, hdescribes⟩⟩

theorem ask_ofImage_of_ok (h : s.scanImage image = .ok modules) (q : Query) :
    (ofImage image).ask s q = (.ok ((Modules.addAllNew .empty modules).answer q),
      .image image (.indexed (.addAllNew .empty modules))) := by
  cases q <;> simp only [ofImage, ask, find, findAll, ImageState.index, h] <;> rfl

theorem ask_ofImage_of_error {e : SearchError} (h : s.scanImage image = .error e) (q : Query) :
    (ofImage image).ask s q = (.error e, .image image .failed) := by
  cases q <;> simp only [ofImage, ask, find, findAll, ImageState.index, h] <;> rfl

theorem answers_indexed (found : Modules) (run : List Step) :
    (Catalog.image image (.indexed found)).answers run =
      run.map fun step => .ok (found.answer step.query) := by
  have hask : ∀ s q, ask s q (.image image (.indexed found)) =
      (.ok (found.answer q), .image image (.indexed found)) := by
    intro s q
    cases q <;> rfl
  exact answersOf_eq_map hask run

theorem answers_failed (run : List Step) :
    (Catalog.image image .failed).answers run = run.map fun _ => .error .unusable := by
  have hask : ∀ s q, ask s q (.image image .failed) = (.error .unusable, .image image .failed) := by
    intro s q
    cases q <;> rfl
  exact answersOf_eq_map hask run

/-- The first query on an image succeeds if and only if all descriptors in it are in order. Then
there is one module for each, and otherwise the error is that of the first that is not in order.
Only the descriptors count. -/
theorem answers_ofImage (hload : Archive.load s.storage image .image = .ok a) (q : Query) :
    ((∃ answer, ((ofImage image).ask s q).1 = .ok answer) ↔
      a.zip.InOrder s.decode a.zip.entries) ∧
    (a.zip.InOrder s.decode a.zip.entries → ∃ found : Modules,
      found.IsIndexOf a.zip s.decode image ∧ IsListing found.get? found.toList ∧
        ∀ run, (ofImage image).answers (⟨s, q⟩ :: run) =
          (⟨s, q⟩ :: run).map fun step => .ok (found.answer step.query)) ∧
    (¬ a.zip.InOrder s.decode a.zip.entries → ∃ before e after module err,
      a.zip.entries = before ++ e :: after ∧ a.zip.InOrder s.decode before ∧
        e.IsDescriptorOf module ∧ a.zip.Misdescribes s.decode image e module err ∧
          ∀ run, (ofImage image).answers (⟨s, q⟩ :: run) =
            .error err :: run.map fun _ => .error .unusable) ∧
    ∀ s' a', Archive.load s'.storage image .image = .ok a' → s'.decode = s.decode →
      a'.zip.descriptors = a.zip.descriptors → ∀ run,
        (ofImage image).answers (⟨s', q⟩ :: run) = (ofImage image).answers (⟨s, q⟩ :: run) := by
  have hinOrder := Surroundings.exists_scanImage_iff hload
  refine ⟨?_, fun h => ?_, fun h => ?_, fun s' a' hload' hdecode hdescriptors run => ?_⟩
  · rw [← hinOrder]
    cases hscan : s.scanImage image with
    | ok modules => simp [ask_ofImage_of_ok hscan]
    | error err => simp [ask_ofImage_of_error hscan]
  · obtain ⟨modules, hscan⟩ := hinOrder.mpr h
    refine ⟨_, isIndexOf_of_scanImage hload hscan, Modules.isListing _, fun run => ?_⟩
    rw [answers, answersOf, ask_ofImage_of_ok hscan]
    exact congrArg _ (answers_indexed _ run)
  · cases hscan : s.scanImage image with
    | ok modules => exact absurd (hinOrder.mp ⟨modules, hscan⟩) h
    | error err =>
        obtain ⟨before, e, after, module, hentries, hbefore, hmodule, hfault⟩ :=
          Surroundings.exists_misdescribes_of_scanImage hload hscan
        refine ⟨before, e, after, module, err, hentries, hbefore, hmodule, hfault, fun run => ?_⟩
        rw [answers, answersOf, ask_ofImage_of_error hscan]
        exact congrArg _ (answers_failed run)
  · have hscan := Surroundings.scanImage_eq_of_descriptors hload hload' hdecode hdescriptors
    have hask : (ofImage image).ask s' q = (ofImage image).ask s q := by
      cases hscan' : s.scanImage image with
      | ok modules => rw [ask_ofImage_of_ok (hscan.trans hscan'), ask_ofImage_of_ok hscan']
      | error err => rw [ask_ofImage_of_error (hscan.trans hscan'), ask_ofImage_of_error hscan']
    simp only [answers, answersOf, hask]

end Catalog

/-- An image with a descriptor between two files that are none: one lies at the top, the other too
deep in a directory without a descriptor. -/
def Zip.crowdedSample : ByteArray :=
  pack [("module-info.json", .empty), ("m/module-info.json", Document.sample),
    ("n/p/module-info.json", .empty)]

def Surroundings.crowdedSample : Surroundings :=
  reading (Volume.packedSample Zip.crowdedSample).storage

theorem Surroundings.exists_load_reading {bytes : ByteArray} {P : Archive → Prop}
    (h : ∃ a, Archive.ofBytes ⟨"/jdk/lib/modules"⟩ .image bytes = .ok a ∧ P a) :
    ∃ a, Archive.load (reading (Volume.packedSample bytes).storage).storage ⟨"/jdk/lib/modules"⟩
      .image = .ok a ∧ P a := by
  rw [Archive.load, reading, Volume.read_packedSample]
  exact h

/-- Files beside the descriptor make no difference. -/
theorem Catalog.answers_ofImage_sample :
    ∃ a a', Archive.load Surroundings.packedSample.storage ⟨"/jdk/lib/modules"⟩ .image = .ok a ∧
      Archive.load Surroundings.crowdedSample.storage ⟨"/jdk/lib/modules"⟩ .image = .ok a' ∧
      a'.zip.descriptors = a.zip.descriptors ∧ a.zip.InOrder Descriptor.decode a.zip.entries ∧
      ∃ found : Modules, found.IsIndexOf a.zip Descriptor.decode ⟨"/jdk/lib/modules"⟩ ∧
        found.toList = [⟨LocatedModule.sample.descriptor, .image ⟨"/jdk/lib/modules"⟩ "m"⟩] ∧
        ∀ run, (ofImage ⟨"/jdk/lib/modules"⟩).answers (⟨.crowdedSample, .findAll⟩ :: run) =
          .ok (.all found.toList) :: run.map fun step => .ok (found.answer step.query) := by
  obtain ⟨a, hload, ha⟩ : ∃ a, Archive.load Surroundings.packedSample.storage
      ⟨"/jdk/lib/modules"⟩ .image = .ok a ∧
        a.zip.descriptors = [("m/module-info.json", .ok Document.sample)] :=
    Surroundings.exists_load_reading (by decide +kernel)
  obtain ⟨a', hload', ha'⟩ : ∃ a', Archive.load Surroundings.crowdedSample.storage
      ⟨"/jdk/lib/modules"⟩ .image = .ok a' ∧
        a'.zip.descriptors = [("m/module-info.json", .ok Document.sample)] :=
    Surroundings.exists_load_reading (by decide +kernel)
  have hask : ((ofImage ⟨"/jdk/lib/modules"⟩).ask .packedSample .findAll).1 =
      .ok (.all [⟨LocatedModule.sample.descriptor, .image ⟨"/jdk/lib/modules"⟩ "m"⟩]) :=
    congrArg (Except.map Answer.all) findAll_packedSample
  obtain ⟨hsucceeds, hindex, -, hsame⟩ := answers_ofImage hload .findAll
  have hinOrder := hsucceeds.mp ⟨_, hask⟩
  obtain ⟨found, hfound, -, hanswers⟩ := hindex hinOrder
  have hlisting : found.toList =
      [⟨LocatedModule.sample.descriptor, .image ⟨"/jdk/lib/modules"⟩ "m"⟩] := by
    have hfirst := hask.symm.trans (List.cons.inj (hanswers [])).1
    exact (Answer.all.inj (Except.ok.inj hfirst)).symm
  refine ⟨a, a', hload, hload', ha'.trans ha.symm, hinOrder, found, hfound, hlisting, fun run => ?_⟩
  exact (hsame _ a' hload' rfl (ha'.trans ha.symm) run).trans (hanswers run)

end ModuleSearch
