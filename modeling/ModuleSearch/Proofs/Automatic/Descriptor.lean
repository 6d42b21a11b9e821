import ModuleSearch.Proofs.Automatic.DerivedName
import ModuleSearch.Proofs.Automatic.Sources
import ModuleSearch.Proofs.Descriptor.Build

/-!
# The automatic module of an archive

When an archive gives an automatic module is `Derivable`, and which one is `Describes`; neither
depends on the order of the entries. The main result is `descriptor_eq_ok_iff`. The checks that are
made on the way cover all that is checked at the end: `legal_edits`.
-/

namespace ModuleSearch

open Draft

/-! ## The edits -/

namespace Automatic

variable {a : Archive} {derived : DerivedName} {d : Descriptor} {found : List String}
  {listed : List (String × List String)} {mainClass : Option String}
  {package service : String} {providers : List String}

/-- Packages and services set nothing of which the last word counts. -/
theorem lastOf_edits {α : Type} {f : Edit → Option α} (derived : DerivedName)
    (mainClass : Option String) (hexport : ∀ package, f (.exportPackage package) = none)
    (hprovide : ∀ p : String × List String, f (.provide p.1 p.2) = none) :
    lastOf f (edits derived found listed mainClass) =
      (mainClass.bind fun c => f (.mainClass c)).or
        ((derived.version.bind fun v => f (.version v)).or (f (.automatic true))) := by
  simp only [edits, lastOf_append, lastOf_map_toList, lastOf_map_eq_none hexport,
    lastOf_map_eq_none hprovide, Option.none_or]
  cases h : f (.automatic true) <;> simp [lastOf, h]

theorem versionText_edits : lastOf Edit.versionText? (edits derived found listed mainClass) =
    derived.version.map Version.text := by
  rw [lastOf_edits derived mainClass (fun _ => rfl) fun _ => rfl]
  cases derived.version <;> cases mainClass <;> rfl

theorem mainClass_edits :
    lastOf Edit.mainClass? (edits derived found listed mainClass) = mainClass := by
  rw [lastOf_edits derived mainClass (fun _ => rfl) fun _ => rfl]
  cases derived.version <;> cases mainClass <;> rfl

theorem automatic_edits :
    lastOf Edit.automatic? (edits derived found listed mainClass) = some true := by
  rw [lastOf_edits derived mainClass (fun _ => rfl) fun _ => rfl]
  cases derived.version <;> cases mainClass <;> rfl

theorem require_not_mem_edits (dependency : String) (given : List Modifier) :
    .require dependency given ∉ edits derived found listed mainClass := by
  simp [edits]

theorem exportPackage_mem_edits :
    .exportPackage package ∈ edits derived found listed mainClass ↔ package ∈ found := by
  simp [edits]

theorem provide_mem_edits :
    .provide service providers ∈ edits derived found listed mainClass ↔
      (service, providers) ∈ listed := by
  simp [edits]

theorem legal_edits (hname : DerivedName.ofFileName? (a.path.fileName?.getD "") = some derived)
    (hfound : packages a.path a.names = .ok found) (hlisted : provisions a a.names = .ok listed)
    (hmainClass : manifestMainClass? a = .ok mainClass) :
    Legal derived.name (edits derived found listed mainClass) where
  name := DerivedName.isModuleName_of_ofFileName? hname
  requires dependency given h := absurd h (require_not_mem_edits dependency given)
  exports package h := by
    obtain ⟨entry, -, -, -, hlegal⟩ :=
      (mem_of_packages_eq_ok hfound).mp (exportPackage_mem_edits.mp h)
    exact hlegal
  services service given h := by
    obtain ⟨-, entry, -, -, hlegal, -⟩ :=
      (mem_of_provisions_eq_ok hlisted).mp (provide_mem_edits.mp h)
    exact hlegal
  providers service given h := by
    obtain ⟨-, entry, -, -, -, content, -, hparse⟩ :=
      (mem_of_provisions_eq_ok hlisted).mp (provide_mem_edits.mp h)
    exact (ServiceFile.of_parse hparse).2
  provided service given h := by
    obtain ⟨hne, -⟩ := (mem_of_provisions_eq_ok hlisted).mp (provide_mem_edits.mp h)
    obtain ⟨provider, hprovider⟩ := List.exists_mem_of_ne_nil given hne
    exact ⟨provider, given, h, hprovider⟩
  mainClass c h := by
    rw [mainClass_edits] at h
    subst h
    obtain ⟨-, -, -, -, -, -, -, hlegal⟩ := manifestMainClass?_eq_ok_some_iff.mp hmainClass
    exact hlegal

/-! ## The automatic module -/

/-- Nothing in the archive stands against an automatic module of this name and version. -/
structure Derivable (a : Archive) (derived : DerivedName) : Prop where
  name : DerivedName.ofFileName? (a.path.fileName?.getD "") = some derived
  classes : ∀ entry ∈ a.names, IsClass entry →
    ∃ package, InPackage entry package ∧ Name.isQualifiedName package = true
  services : ∀ entry ∈ a.names, ∀ service, IsServiceFile entry service →
    Name.isQualifiedName service = true ∧ ∃ providers, Lists a entry providers
  manifest : a.read Manifest.fileName = .ok none ∨ ∃ content manifest,
    a.read Manifest.fileName = .ok (some content) ∧ Manifest.parse content = .ok manifest

/-- The descriptor says what the archive holds. -/
structure Describes (a : Archive) (derived : DerivedName) (d : Descriptor) : Prop where
  name : d.name = derived.name
  version : d.version? = derived.version
  versionText : d.versionText = derived.version.map Version.text
  requires : ∀ dependency, d.requires.get? dependency =
    if dependency = baseModule ∧ derived.name ≠ baseModule then some { mandated := true } else none
  exports : ∀ package, package ∈ d.exports.toList ↔
    ∃ entry ∈ a.names, IsClass entry ∧ InPackage entry package
  /-- A service whose file lists no provider is not provided. -/
  provides : ∀ service providers, d.provides.get? service = some providers ↔
    providers ≠ [] ∧ ∃ entry ∈ a.names, IsServiceFile entry service ∧ Lists a entry providers
  mainClass : ∀ mainClass, d.mainClass = some mainClass ↔ IsMainClass a mainClass
  isAutomatic : d.isAutomatic = true

theorem Describes.unique {d' : Descriptor} (h : Describes a derived d)
    (h' : Describes a derived d') : d = d' := by
  have hrequires : d.requires = d'.requires := NameMap.ext_get? fun dependency =>
    (h.requires dependency).trans (h'.requires dependency).symm
  have hexports : d.exports = d'.exports := NameSet.ext_toList fun package =>
    (h.exports package).trans (h'.exports package).symm
  have hprovides : d.provides = d'.provides := NameMap.ext_get? fun service =>
    Option.ext fun providers =>
      (h.provides service providers).trans (h'.provides service providers).symm
  have hmainClass : d.mainClass = d'.mainClass := Option.ext fun mainClass =>
    (h.mainClass mainClass).trans (h'.mainClass mainClass).symm
  rw [Descriptor.mk.injEq]
  exact ⟨h.name.trans h'.name.symm, h.versionText.trans h'.versionText.symm, hrequires, hexports,
    hprovides, hmainClass, h.isAutomatic.trans h'.isAutomatic.symm⟩

theorem derivedName_eq_ok_iff {path : Path} : derivedName path = .ok derived ↔
    DerivedName.ofFileName? (path.fileName?.getD "") = some derived := by
  unfold derivedName
  cases h : DerivedName.ofFileName? (path.fileName?.getD "") with
  | none => simp [h]
  | some other => simp [h]

theorem derivable_iff : Derivable a derived ↔
    derivedName a.path = .ok derived ∧ (∃ found, packages a.path a.names = .ok found) ∧
      (∃ listed, provisions a a.names = .ok listed) ∧
      ∃ mainClass, manifestMainClass? a = .ok mainClass := by
  rw [derivedName_eq_ok_iff, exists_packages_eq_ok_iff, exists_provisions_eq_ok_iff,
    exists_manifestMainClass?_eq_ok_iff]
  exact ⟨fun h => ⟨h.name, h.classes, h.services, h.manifest⟩,
    fun ⟨hname, hclasses, hservices, hmanifest⟩ => ⟨hname, hclasses, hservices, hmanifest⟩⟩

/-- A service has one file, which lists its providers once. -/
theorem providers_unique {providers' : List String} (hlisted : provisions a a.names = .ok listed)
    (h : (service, providers) ∈ listed) (h' : (service, providers') ∈ listed) :
    providers = providers' := by
  obtain ⟨-, entry, -, ⟨rfl, -⟩, -, hlists⟩ := (mem_of_provisions_eq_ok hlisted).mp h
  obtain ⟨-, entry', -, ⟨rfl, -⟩, -, hlists'⟩ := (mem_of_provisions_eq_ok hlisted).mp h'
  exact hlists.unique hlists'

theorem nodup_providers (hlisted : provisions a a.names = .ok listed)
    (h : (service, providers) ∈ listed) : providers.Nodup := by
  obtain ⟨-, entry, -, -, -, content, -, hparse⟩ := (mem_of_provisions_eq_ok hlisted).mp h
  exact (ServiceFile.of_parse hparse).1

theorem providersFor_edits (hlisted : provisions a a.names = .ok listed) :
    (allOf (Edit.providersFor? service) (edits derived found listed mainClass)).map
        List.eraseDups = some providers ↔ (service, providers) ∈ listed := by
  simp only [Option.map_eq_some_iff, allOf_eq_some_iff]
  generalize hlists : (edits derived found listed mainClass).filterMap
    (Edit.providersFor? service) = lists
  have hmem : ∀ given, given ∈ lists ↔ (service, given) ∈ listed := by
    intro given
    rw [← hlists, mem_providersFor, provide_mem_edits]
  -- all lists of one service are alike, so that joining them adds nothing
  have hjoined : ∀ given, (service, given) ∈ listed → lists.flatten.eraseDups = given :=
    fun given hgiven => NameList.eraseDups_flatten (nodup_providers hlisted hgiven)
      ((hmem given).mpr hgiven)
      fun other hother => providers_unique hlisted ((hmem other).mp hother) hgiven
  constructor
  · rintro ⟨_, ⟨⟨given, hgiven⟩, rfl⟩, rfl⟩
    rw [hmem] at hgiven
    rwa [hjoined given hgiven]
  · intro h
    exact ⟨_, ⟨⟨providers, (hmem providers).mpr h⟩, rfl⟩, hjoined providers h⟩

/-- What the edits declare describes the archive. -/
theorem describes_of_declares (h : Derivable a derived)
    (hfound : packages a.path a.names = .ok found) (hlisted : provisions a a.names = .ok listed)
    (hmainClass : manifestMainClass? a = .ok mainClass)
    (hd : Declares derived.name (edits derived found listed mainClass) d) :
    Describes a derived d where
  name := hd.name
  version := by
    rw [hd.version, hd.versionText, versionText_edits]
    cases hversion : derived.version with
    | none => rfl
    | some v => exact DerivedName.version_of_ofFileName? h.name hversion
  versionText := hd.versionText.trans versionText_edits
  requires dependency := by
    split
    · rename_i hbase
      rw [hbase.1]
      exact hd.base hbase.2 fun given => require_not_mem_edits baseModule given
    · rename_i hbase
      exact hd.notRequired dependency (fun given => require_not_mem_edits dependency given)
        (by simpa using hbase)
  exports package := by
    rw [hd.exports, exportPackage_mem_edits, mem_of_packages_eq_ok hfound]
    refine exists_congr fun entry => and_congr_right fun hentry => and_congr_right fun hclass => ?_
    refine ⟨And.left, fun hpackage => ⟨hpackage, ?_⟩⟩
    obtain ⟨legal, hlegal, hqualified⟩ := h.classes entry hentry hclass
    rwa [hpackage.unique hlegal]
  provides service providers := by
    rw [hd.provides, providersFor_edits hlisted, mem_of_provisions_eq_ok hlisted]
    refine and_congr_right fun _ => exists_congr fun entry => and_congr_right fun hentry =>
      and_congr_right fun hservice => ?_
    exact ⟨And.right, fun hlists => ⟨(h.services entry hentry service hservice).1, hlists⟩⟩
  mainClass c := by
    rw [hd.mainClass, mainClass_edits, ← manifestMainClass?_eq_ok_some_iff, hmainClass,
      Except.ok.injEq]
  isAutomatic := by
    rw [hd.isAutomatic, automatic_edits]
    rfl

/-- Once all sources are read there is a descriptor. -/
theorem exists_descriptor (h : Derivable a derived) :
    ∃ d, descriptor a = .ok d ∧ Describes a derived d := by
  obtain ⟨hname, ⟨found, hfound⟩, ⟨listed, hlisted⟩, mainClass, hmainClass⟩ := derivable_iff.mp h
  have hlegal := legal_edits h.name hfound hlisted hmainClass
  have hproblem := problem?_ofEdits.mpr hlegal
  cases hbuild : (ofEdits derived.name (edits derived found listed mainClass)).build with
  | error cause => simp [build, hproblem] at hbuild
  | ok d =>
      have hd := describes_of_declares h hfound hlisted hmainClass (declares_of_build hbuild)
      refine ⟨d, ?_, hd⟩
      simp [descriptor, hname, hfound, hlisted, hmainClass, hbuild, bind, Except.bind, pure,
        Except.pure]

theorem derivable_of_descriptor (h : descriptor a = .ok d) : ∃ derived, Derivable a derived := by
  simp only [descriptor, bind_eq_ok_iff] at h
  obtain ⟨derived, hname, found, hfound, listed, hlisted, mainClass, hmainClass, -⟩ := h
  exact ⟨derived, derivable_iff.mpr ⟨hname, ⟨found, hfound⟩, ⟨listed, hlisted⟩, mainClass,
    hmainClass⟩⟩

theorem describes_of_descriptor (h : descriptor a = .ok d) :
    ∃ derived, Derivable a derived ∧ Describes a derived d := by
  obtain ⟨derived, hderivable⟩ := derivable_of_descriptor h
  obtain ⟨d', hd', hdescribes⟩ := exists_descriptor hderivable
  obtain rfl : d = d' := Except.ok.inj (h.symm.trans hd')
  exact ⟨derived, hderivable, hdescribes⟩

theorem derivedName_ne_error {path : Path} (path' : Path) (cause : DescriptorError) :
    derivedName path ≠ .error (.notDerivable path' (.descriptor cause)) := by
  intro h
  unfold derivedName at h
  cases hname : DerivedName.ofFileName? (path.fileName?.getD "") <;> simp [hname] at h

theorem descriptor_ne_error (a : Archive) (cause : DescriptorError) :
    descriptor a ≠ .error (.notDerivable a.path (.descriptor cause)) := by
  intro h
  by_cases hderivable : ∃ derived, Derivable a derived
  · obtain ⟨derived, hderivable⟩ := hderivable
    obtain ⟨d, hd, -⟩ := exists_descriptor hderivable
    rw [hd] at h
    cases h
  · simp only [descriptor, bind_eq_error_iff] at h
    obtain h | ⟨derived, hname, h | ⟨found, hfound, h | ⟨listed, hlisted, h |
      ⟨mainClass, hmainClass, -⟩⟩⟩⟩ := h
    · exact derivedName_ne_error a.path cause h
    · exact packages_ne_error a.path cause h
    · exact provisions_ne_error a.path cause h
    · exact manifestMainClass?_ne_error a.path cause h
    · exact hderivable ⟨derived, derivable_iff.mpr ⟨hname, ⟨found, hfound⟩, ⟨listed, hlisted⟩,
        mainClass, hmainClass⟩⟩

/-- An archive gives a descriptor exactly when its file name gives a module name, all its classes
lie in packages, and its service files and its manifest can be read; the descriptor then says what
they hold. That the collected declarations are illegal is never the fault. -/
theorem descriptor_eq_ok_iff (a : Archive) :
    ((∃ d, descriptor a = .ok d) ↔ ∃ derived, Derivable a derived) ∧
    (∀ d, descriptor a = .ok d ↔ ∃ derived, Derivable a derived ∧ Describes a derived d) ∧
    ∀ cause, descriptor a ≠ .error (.notDerivable a.path (.descriptor cause)) := by
  refine ⟨⟨fun ⟨d, h⟩ => derivable_of_descriptor h, ?_⟩,
    fun d => ⟨describes_of_descriptor, ?_⟩, descriptor_ne_error a⟩
  · rintro ⟨derived, h⟩
    obtain ⟨d, hd, -⟩ := exists_descriptor h
    exact ⟨d, hd⟩
  · rintro ⟨derived, h, hdescribes⟩
    obtain ⟨d', hd', hdescribes'⟩ := exists_descriptor h
    rwa [hdescribes.unique hdescribes']

end Automatic

end ModuleSearch
