import ModuleSearch.Automatic
import ModuleSearch.Proofs.Archive.Names
import ModuleSearch.Proofs.Except

/-!
# The sources of an automatic module

An automatic module is put together from its file name, its classes, its service files and its
manifest. Here is said without the order of the entries which packages, services and main class
they give, and when they give them at all.
-/

namespace ModuleSearch

namespace ServiceFile

variable {content : ByteArray} {providers names : List String}

theorem isQualifiedName_of_readLines {number : Nat} {lines : List (List Char)}
    (h : readLines number lines = .ok names) :
    ∀ name ∈ names, Name.isQualifiedName name = true := by
  induction lines generalizing number names with
  | nil =>
      obtain rfl : [] = names := Except.ok.inj h
      simp
  | cons line rest ih =>
      rw [readLines] at h
      split at h
      · exact ih h
      · split at h
        · rename_i hname
          obtain ⟨others, hothers, rfl⟩ := map_eq_ok_iff.mp h
          simpa [hname] using ih hothers
        · cases h

/-- The providers of a service file are legal names, each listed once. -/
theorem of_parse (h : parse content = .ok providers) :
    providers.Nodup ∧ ∀ provider ∈ providers, Name.isQualifiedName provider = true := by
  rw [parse] at h
  split at h
  · cases h
  · obtain ⟨names, hnames, rfl⟩ := map_eq_ok_iff.mp h
    refine ⟨NameList.nodup_distinct names, fun provider hprovider => ?_⟩
    exact isQualifiedName_of_readLines hnames provider (NameList.mem_distinct.mp hprovider)

end ServiceFile

namespace Manifest

/-- The first attribute of a name has this value; ASCII letters count without their case. -/
def HasFirst (m : Manifest) (name value : String) : Prop :=
  ∃ before a after, m.attributes = before ++ a :: after ∧ a.value = value ∧
    lowerCase a.name = lowerCase name ∧ ∀ b ∈ before, lowerCase b.name ≠ lowerCase name

theorem attribute?_eq_some_iff {m : Manifest} {name value : String} :
    m.attribute? name = some value ↔ m.HasFirst name value := by
  simp only [attribute?, HasFirst, Option.map_eq_some_iff, List.find?_eq_some_iff_append,
    beq_iff_eq, Bool.not_eq_true', beq_eq_false_iff_ne]
  constructor
  · rintro ⟨a, ⟨hname, before, after, hattributes, hbefore⟩, hvalue⟩
    exact ⟨before, a, after, hattributes, hvalue, hname, hbefore⟩
  · rintro ⟨before, a, after, hattributes, hvalue, hname, hbefore⟩
    exact ⟨a, ⟨hname, before, after, hattributes, hbefore⟩, hvalue⟩

end Manifest

namespace Automatic

variable {a : Archive} {path : Path} {entry package service mainClass : String}
  {found providers : List String}

/-! ## Classes -/

/-- An entry holds a class unless it lies in the directory for data about the archive. -/
def IsClass (entry : String) : Prop :=
  classSuffix.toList <:+ entry.toList ∧ ¬ metaDirectory.toList <+: entry.toList

/-- The package of an entry is its directory, with dots for slashes. -/
def InPackage (entry package : String) : Prop :=
  ∃ directory name, entry.toList = directory ++ '/' :: name ∧ '/' ∉ name ∧
    package = String.ofList (Text.replace '/' '.' directory)

theorem InPackage.unique {package' : String} (h : InPackage entry package)
    (h' : InPackage entry package') : package = package' := by
  obtain ⟨directory, name, hentry, hname, rfl⟩ := h
  obtain ⟨directory', name', hentry', hname', rfl⟩ := h'
  have hcut := Text.cutLast?_eq_some_iff.mpr ⟨hname, hentry⟩
  have hcut' := Text.cutLast?_eq_some_iff.mpr ⟨hname', hentry'⟩
  obtain ⟨rfl, -⟩ : directory = directory' ∧ name = name' := by simpa [hcut] using hcut'
  rfl

theorem classPath?_eq_some_iff {classPath : List Char} :
    classPath? entry = some classPath ↔
      IsClass entry ∧ entry.toList = classPath ++ classSuffix.toList := by
  have hmeta : (Text.dropPrefix? metaDirectory.toList entry.toList).isSome = true ↔
      metaDirectory.toList <+: entry.toList := by
    rw [Option.isSome_iff_exists]
    exact exists_congr fun rest => Text.dropPrefix?_eq_some_iff.trans eq_comm
  rw [classPath?, Option.ite_none_left_eq_some, Text.dropSuffix?_eq_some_iff, hmeta, IsClass]
  constructor
  · rintro ⟨hoffside, hentry⟩
    exact ⟨⟨⟨classPath, hentry.symm⟩, hoffside⟩, hentry⟩
  · rintro ⟨⟨-, hoffside⟩, hentry⟩
    exact ⟨hoffside, hentry⟩

theorem classPath?_eq_none_iff : classPath? entry = none ↔ ¬ IsClass entry := by
  rw [Option.eq_none_iff_forall_ne_some]
  constructor
  · rintro h ⟨⟨classPath, hentry⟩, hoffside⟩
    exact h classPath (classPath?_eq_some_iff.mpr ⟨⟨⟨classPath, hentry⟩, hoffside⟩, hentry.symm⟩)
  · exact fun h classPath hclassPath => h (classPath?_eq_some_iff.mp hclassPath).1

theorem inPackage_iff : InPackage entry package ↔
    (Text.cutLast? '/' entry.toList).map (fun p => String.ofList (Text.replace '/' '.' p.1)) =
      some package := by
  simp only [Option.map_eq_some_iff, Prod.exists, Text.cutLast?_eq_some_iff]
  constructor
  · rintro ⟨directory, name, hentry, hname, rfl⟩
    exact ⟨directory, name, ⟨hname, hentry⟩, rfl⟩
  · rintro ⟨directory, name, ⟨hname, hentry⟩, rfl⟩
    exact ⟨directory, name, hentry, hname, rfl⟩

/-- The suffix of a class has no part in its directory. -/
theorem inPackage_iff_of_classPath {classPath : List Char}
    (hentry : entry.toList = classPath ++ classSuffix.toList) :
    InPackage entry package ↔
      (Text.cutLast? '/' classPath).map (fun p => String.ofList (Text.replace '/' '.' p.1)) =
        some package := by
  rw [inPackage_iff, hentry, Text.cutLast?_append (by decide), Option.map_map]
  rfl

theorem package?_eq_ok_none_iff : package? path entry = .ok none ↔ ¬ IsClass entry := by
  rw [← classPath?_eq_none_iff, package?]
  cases classPath? entry with
  | none => simp
  | some classPath =>
      simp only [reduceCtorEq, iff_false]
      split
      · simp
      · split <;> simp

theorem package?_eq_ok_some_iff : package? path entry = .ok (some package) ↔
    IsClass entry ∧ InPackage entry package ∧ Name.isQualifiedName package = true := by
  rw [package?]
  cases hclass : classPath? entry with
  | none => simp [classPath?_eq_none_iff.mp hclass]
  | some classPath =>
      obtain ⟨hentry, hpath⟩ := classPath?_eq_some_iff.mp hclass
      simp only [hentry, true_and, inPackage_iff_of_classPath hpath]
      cases Text.cutLast? '/' classPath with
      | none => simp
      | some cut =>
          simp only [Option.map_some, Option.some.injEq]
          split
          · rename_i hlegal
            rw [Except.ok.injEq, Option.some.injEq]
            exact ⟨fun h => ⟨h, h ▸ hlegal⟩, And.left⟩
          · rename_i hlegal
            simp only [reduceCtorEq, false_iff, not_and]
            exact fun h => h ▸ hlegal

/-- The classes that have a legal package, or there is an error. -/
theorem exists_packages_eq_ok_iff {entries : List String} :
    (∃ found, packages path entries = .ok found) ↔ ∀ entry ∈ entries, IsClass entry →
      ∃ package, InPackage entry package ∧ Name.isQualifiedName package = true := by
  unfold packages
  rw [exists_bind_pure_eq_ok_iff, exists_mapM_eq_ok_iff]
  refine forall₂_congr fun entry _ => ⟨?_, fun h => ?_⟩
  · rintro ⟨_ | package, h⟩ hentry
    · exact absurd hentry (package?_eq_ok_none_iff.mp h)
    · exact ⟨package, (package?_eq_ok_some_iff.mp h).2⟩
  · by_cases hentry : IsClass entry
    · obtain ⟨package, hpackage⟩ := h hentry
      exact ⟨some package, package?_eq_ok_some_iff.mpr ⟨hentry, hpackage⟩⟩
    · exact ⟨none, package?_eq_ok_none_iff.mpr hentry⟩

theorem mem_of_packages_eq_ok {entries : List String} (h : packages path entries = .ok found) :
    package ∈ found ↔ ∃ entry ∈ entries,
      IsClass entry ∧ InPackage entry package ∧ Name.isQualifiedName package = true := by
  simp only [packages, bind_eq_ok_iff] at h
  obtain ⟨results, hresults, hfound⟩ := h
  obtain rfl : results.filterMap id = found := Except.ok.inj hfound
  simp only [List.mem_filterMap, id_eq, exists_eq_right, mem_of_mapM_eq_ok hresults,
    package?_eq_ok_some_iff]

/-- A class has faults of its own, here and for the other sources below. -/
theorem package?_ne_error (path' : Path) (cause : DescriptorError) :
    package? path entry ≠ .error (.notDerivable path' (.descriptor cause)) := by
  intro h
  rw [package?] at h
  split at h
  · cases h
  · split at h
    · cases h
    · dsimp only at h
      split at h <;> cases h

theorem packages_ne_error {entries : List String} (path' : Path) (cause : DescriptorError) :
    packages path entries ≠ .error (.notDerivable path' (.descriptor cause)) := by
  intro h
  rw [packages, bind_pure_eq_error_iff] at h
  obtain ⟨entry, -, h⟩ := exists_of_mapM_eq_error h
  exact package?_ne_error path' cause h

/-! ## Service files -/

def IsServiceFile (entry service : String) : Prop :=
  entry = ServiceFile.directory ++ service ∧ '/' ∉ service.toList

/-- The providers that an entry lists. -/
def Lists (a : Archive) (entry : String) (providers : List String) : Prop :=
  ∃ content, a.read entry = .ok (some content) ∧ ServiceFile.parse content = .ok providers

theorem Lists.unique {providers' : List String} (h : Lists a entry providers)
    (h' : Lists a entry providers') : providers = providers' := by
  obtain ⟨content, hread, hparse⟩ := h
  obtain ⟨content', hread', hparse'⟩ := h'
  obtain rfl : content = content' := by simpa [hread] using hread'
  simpa [hparse] using hparse'

theorem service?_eq_some_iff : service? entry = some service ↔ IsServiceFile entry service := by
  rw [service?, IsServiceFile, ← String.toList_inj, String.toList_append]
  constructor
  · intro h
    split at h
    · cases h
    · rename_i rest hrest
      rw [Option.ite_none_left_eq_some] at h
      obtain ⟨hslash, hservice⟩ := h
      obtain rfl := Option.some.inj hservice
      rw [String.toList_ofList]
      exact ⟨Text.dropPrefix?_eq_some_iff.mp hrest, by simpa using hslash⟩
  · rintro ⟨hentry, hslash⟩
    rw [Text.dropPrefix?_eq_some_iff.mpr hentry]
    simp [hslash]

theorem provision?_eq_ok_none_iff :
    provision? a entry = .ok none ↔ ∀ service, ¬ IsServiceFile entry service := by
  simp only [← service?_eq_some_iff, provision?]
  cases service? entry with
  | none => simp
  | some service =>
      simp only [Option.some.injEq, forall_eq', iff_false]
      split
      · rw [bind_eq_ok_iff]
        rintro ⟨content, -, h⟩
        split at h <;> cases h
      · simp

theorem provision?_eq_ok_some_iff (h : entry ∈ a.names) :
    provision? a entry = .ok (some (service, providers)) ↔
      IsServiceFile entry service ∧ Name.isQualifiedName service = true ∧
        Lists a entry providers := by
  rw [← service?_eq_some_iff, provision?]
  cases service? entry with
  | none => simp
  | some other =>
      simp only [Option.some.injEq]
      constructor
      · intro hprovision
        split at hprovision
        · rename_i hlegal
          rw [bind_eq_ok_iff] at hprovision
          obtain ⟨_ | content, hread, hprovision⟩ := hprovision
          · -- an entry that is listed is there
            exact absurd hread (Archive.read_ne_none h)
          · split at hprovision
            · rename_i hparse
              obtain ⟨rfl, rfl⟩ : other = service ∧ _ = providers := by
                simpa using Except.ok.inj hprovision
              exact ⟨rfl, hlegal, content, hread, hparse⟩
            · cases hprovision
        · cases hprovision
      · rintro ⟨rfl, hlegal, content, hread, hparse⟩
        rw [if_pos hlegal, hread]
        simp [bind, Except.bind, hparse, pure, Except.pure]

theorem exists_provisions_eq_ok_iff : (∃ found, provisions a a.names = .ok found) ↔
    ∀ entry ∈ a.names, ∀ service, IsServiceFile entry service →
      Name.isQualifiedName service = true ∧ ∃ providers, Lists a entry providers := by
  unfold provisions
  rw [exists_bind_pure_eq_ok_iff, exists_mapM_eq_ok_iff]
  refine forall₂_congr fun entry hentry => ⟨?_, fun h => ?_⟩
  · rintro ⟨_ | ⟨service, providers⟩, h⟩ service' hservice'
    · exact absurd hservice' (provision?_eq_ok_none_iff.mp h service')
    · obtain ⟨hservice, hlegal, hlists⟩ := (provision?_eq_ok_some_iff hentry).mp h
      obtain rfl : service = service' := by
        rw [← service?_eq_some_iff] at hservice hservice'
        simpa [hservice] using hservice'
      exact ⟨hlegal, providers, hlists⟩
  · by_cases hservice : ∃ service, IsServiceFile entry service
    · obtain ⟨service, hservice⟩ := hservice
      obtain ⟨hlegal, providers, hlists⟩ := h service hservice
      exact ⟨_, (provision?_eq_ok_some_iff hentry).mpr ⟨hservice, hlegal, hlists⟩⟩
    · exact ⟨none, provision?_eq_ok_none_iff.mpr (not_exists.mp hservice)⟩

theorem mem_of_provisions_eq_ok {found : List (String × List String)}
    (h : provisions a a.names = .ok found) :
    (service, providers) ∈ found ↔ providers ≠ [] ∧ ∃ entry ∈ a.names,
      IsServiceFile entry service ∧ Name.isQualifiedName service = true ∧
        Lists a entry providers := by
  simp only [provisions, bind_eq_ok_iff] at h
  obtain ⟨results, hresults, hfound⟩ := h
  obtain rfl := Except.ok.inj hfound
  simp only [List.mem_filter, List.mem_filterMap, id_eq, exists_eq_right,
    mem_of_mapM_eq_ok hresults, Bool.not_eq_true', List.isEmpty_eq_false_iff]
  rw [and_comm]
  refine and_congr_right fun _ => exists_congr fun entry => and_congr_right fun hentry => ?_
  exact provision?_eq_ok_some_iff hentry

theorem read_ne_error (name : String) (path' : Path) (fault : DerivationFault) :
    a.read name ≠ .error (.notDerivable path' fault) := by
  rw [Archive.read]
  split <;> simp

theorem provision?_ne_error (path' : Path) (cause : DescriptorError) :
    provision? a entry ≠ .error (.notDerivable path' (.descriptor cause)) := by
  intro h
  rw [provision?] at h
  split at h
  · cases h
  · split at h
    · rw [bind_eq_error_iff] at h
      obtain h | ⟨content, -, h⟩ := h
      · exact read_ne_error entry path' _ h
      · split at h <;> cases h
    · cases h

theorem provisions_ne_error {entries : List String} (path' : Path) (cause : DescriptorError) :
    provisions a entries ≠ .error (.notDerivable path' (.descriptor cause)) := by
  intro h
  rw [provisions, bind_pure_eq_error_iff] at h
  obtain ⟨entry, -, h⟩ := exists_of_mapM_eq_error h
  exact provision?_ne_error path' cause h

/-! ## The manifest -/

/-- The class that the first attribute of its name in the manifest names, if it is legal. -/
def IsMainClass (a : Archive) (mainClass : String) : Prop :=
  ∃ content manifest value, a.read Manifest.fileName = .ok (some content) ∧
    Manifest.parse content = .ok manifest ∧ manifest.HasFirst "Main-Class" value ∧
    mainClass = String.ofList (Text.replace '/' '.' (Text.trim value.toList)) ∧
    Name.isQualifiedName mainClass = true

theorem mainClass?_eq_some_iff {value : String} : mainClass? value = some mainClass ↔
    mainClass = String.ofList (Text.replace '/' '.' (Text.trim value.toList)) ∧
      Name.isQualifiedName mainClass = true := by
  rw [mainClass?, Option.ite_none_right_eq_some, Option.some.injEq]
  constructor
  · rintro ⟨hlegal, rfl⟩
    exact ⟨rfl, hlegal⟩
  · rintro ⟨rfl, hlegal⟩
    exact ⟨hlegal, rfl⟩

theorem exists_manifestMainClass?_eq_ok_iff : (∃ found, manifestMainClass? a = .ok found) ↔
    a.read Manifest.fileName = .ok none ∨ ∃ content manifest,
      a.read Manifest.fileName = .ok (some content) ∧ Manifest.parse content = .ok manifest := by
  rw [manifestMainClass?]
  cases a.read Manifest.fileName with
  | error cause => simp [bind, Except.bind]
  | ok found =>
      cases found with
      | none => simp [bind, Except.bind, pure, Except.pure]
      | some content =>
          cases h : Manifest.parse content <;>
            simp [bind, Except.bind, pure, Except.pure, throw, throwThe, MonadExceptOf.throw, h]

theorem manifestMainClass?_eq_ok_some_iff :
    manifestMainClass? a = .ok (some mainClass) ↔ IsMainClass a mainClass := by
  rw [manifestMainClass?, bind_eq_ok_iff]
  simp only [IsMainClass, ← mainClass?_eq_some_iff, ← Manifest.attribute?_eq_some_iff]
  constructor
  · rintro ⟨_ | content, hread, h⟩
    · cases h
    · dsimp only at h
      split at h
      · rename_i manifest hparse
        obtain ⟨value, hvalue, hclass⟩ := Option.bind_eq_some_iff.mp (Except.ok.inj h)
        exact ⟨content, manifest, value, hread, hparse, hvalue, hclass⟩
      · cases h
  · rintro ⟨content, manifest, value, hread, hparse, hvalue, hclass⟩
    refine ⟨some content, hread, ?_⟩
    simp [hparse, hvalue, hclass, pure, Except.pure]

theorem manifestMainClass?_ne_error (path' : Path) (cause : DescriptorError) :
    manifestMainClass? a ≠ .error (.notDerivable path' (.descriptor cause)) := by
  intro h
  rw [manifestMainClass?, bind_eq_error_iff] at h
  obtain h | ⟨content, -, h⟩ := h
  · exact read_ne_error Manifest.fileName path' _ h
  · split at h
    · cases h
    · split at h <;> cases h

end Automatic

end ModuleSearch
