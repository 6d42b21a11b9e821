import ModuleSearch.Proofs.Descriptor.Declarations
import ModuleSearch.Proofs.Version.Tokens

/-!
# What a draft means

Whether the edits of a draft give a descriptor, and which one, is said here without the order in
which they are made: `Legal` is what `build` checks and `Declares` what it gives. The main result is
`build_ofEdits`.
-/

namespace ModuleSearch.Draft

variable {α : Type} {owner name dependency service : String} {edits edits' : List Edit}

/-! ## The names and the lists that are given -/

theorem allOf_eq_some_iff {f : Edit → Option (List α)} {items : List α} :
    allOf f edits = some items ↔
      (∃ given, given ∈ edits.filterMap f) ∧ (edits.filterMap f).flatten = items := by
  cases h : edits.filterMap f <;> simp [allOf, h]

theorem allOf_eq_none_iff {f : Edit → Option (List α)} :
    allOf f edits = none ↔ ∀ given, given ∉ edits.filterMap f := by
  rw [allOf, ← List.eq_nil_iff_forall_not_mem]
  cases edits.filterMap f <;> simp

theorem mem_modifiersFor {given : List Modifier} :
    given ∈ edits.filterMap (Edit.modifiersFor? dependency) ↔ .require dependency given ∈ edits := by
  simp [Edit.modifiersFor?_eq_some]

theorem mem_providersFor {given : List String} :
    given ∈ edits.filterMap (Edit.providersFor? service) ↔ .provide service given ∈ edits := by
  simp [Edit.providersFor?_eq_some]

theorem get?_requires_eq_none :
    (ofEdits owner edits).requires.get? dependency = none ↔
      ∀ given, .require dependency given ∉ edits := by
  rw [get?_requires_ofEdits, Option.map_eq_none_iff, allOf_eq_none_iff]
  simp only [mem_modifiersFor]

theorem get?_requires_of_mem (owner : String) {given : List Modifier}
    (h : .require dependency given ∈ edits) :
    ∃ modifiers, (ofEdits owner edits).requires.get? dependency = some modifiers ∧
      ∀ m, modifiers.has m = true ↔ ∃ given, .require dependency given ∈ edits ∧ m ∈ given := by
  have hall := allOf_eq_some_iff.mpr ⟨⟨given, mem_modifiersFor.mpr h⟩, rfl⟩
  refine ⟨_, by rw [get?_requires_ofEdits, hall]; rfl, fun m => ?_⟩
  simp only [Modifiers.has_ofList, decide_eq_true_iff, List.mem_flatten, mem_modifiersFor]

theorem mem_keys_requires :
    dependency ∈ (ofEdits owner edits).requires.keys ↔
      ∃ given, .require dependency given ∈ edits := by
  rw [NameMap.mem_keys, Option.isSome_iff_ne_none, ne_eq, get?_requires_eq_none]
  simp

/-! ## What is checked -/

/-- All names that are declared are legal, and every service has a provider. -/
structure Legal (owner : String) (edits : List Edit) : Prop where
  name : Name.isModuleName owner = true
  requires : ∀ dependency given, .require dependency given ∈ edits →
    Name.isModuleName dependency = true ∧ dependency ≠ owner
  exports : ∀ package, .exportPackage package ∈ edits → Name.isQualifiedName package = true
  services : ∀ service given, .provide service given ∈ edits →
    Name.isQualifiedName service = true
  providers : ∀ service given, .provide service given ∈ edits →
    ∀ provider ∈ given, Name.isQualifiedName provider = true
  provided : ∀ service given, .provide service given ∈ edits →
    ∃ provider given, .provide service given ∈ edits ∧ provider ∈ given
  mainClass : ∀ mainClass, lastOf Edit.mainClass? edits = some mainClass →
    Name.isQualifiedName mainClass = true

theorem moduleNameProblem?_eq_none :
    moduleNameProblem? name = none ↔ Name.isModuleName name = true := by
  simp [moduleNameProblem?]

theorem nameProblem?_eq_none {kind : NameKind} :
    nameProblem? kind name = none ↔ Name.isQualifiedName name = true := by
  simp [nameProblem?]

theorem dependencyProblem?_eq_none :
    dependencyProblem? owner dependency = none ↔
      Name.isModuleName dependency = true ∧ dependency ≠ owner := by
  by_cases h : dependency = owner <;> simp [dependencyProblem?, h, moduleNameProblem?_eq_none]

theorem serviceProblem?_eq_none {providers : List String} :
    serviceProblem? service providers = none ↔
      Name.isQualifiedName service = true ∧ (∃ provider, provider ∈ providers) ∧
        ∀ provider ∈ providers, Name.isQualifiedName provider = true := by
  cases providers <;> simp [serviceProblem?, nameProblem?_eq_none]

theorem problem?_eq_none {d : Draft} :
    d.problem? = none ↔
      Name.isModuleName d.name = true ∧
      (∀ dependency ∈ d.requires.keys,
        Name.isModuleName dependency = true ∧ dependency ≠ d.name) ∧
      (∀ package ∈ d.exports.toList, Name.isQualifiedName package = true) ∧
      (∀ service providers, d.provides.get? service = some providers →
        serviceProblem? service providers = none) ∧
      ∀ mainClass, d.mainClass = some mainClass → Name.isQualifiedName mainClass = true := by
  simp only [problem?, Option.or_eq_none_iff, List.findSome?_eq_none_iff, Option.bind_eq_none_iff,
    moduleNameProblem?_eq_none, dependencyProblem?_eq_none, nameProblem?_eq_none,
    NameMap.get?_eq_some_iff, Prod.forall]

/-- The providers of a service are checked one by one, whichever edit gives them. -/
theorem serviceProblem?_ofEdits :
    (∀ service providers, (ofEdits owner edits).provides.get? service = some providers →
        serviceProblem? service providers = none) ↔
      ∀ service given, .provide service given ∈ edits →
        Name.isQualifiedName service = true ∧
        (∃ provider given, .provide service given ∈ edits ∧ provider ∈ given) ∧
        ∀ provider ∈ given, Name.isQualifiedName provider = true := by
  -- Dropping repeats changes no membership, so the joined list holds what each edit gives.
  have hmem : ∀ service provider,
      provider ∈ (edits.filterMap (Edit.providersFor? service)).flatten.eraseDups ↔
        ∃ given, .provide service given ∈ edits ∧ provider ∈ given := by
    intro service provider
    simp only [List.mem_eraseDups, List.mem_flatten, mem_providersFor]
  simp only [get?_provides_ofEdits, Option.map_eq_some_iff, allOf_eq_some_iff,
    serviceProblem?_eq_none, mem_providersFor]
  constructor
  · intro h service given hgiven
    obtain ⟨hservice, hsome, hall⟩ := h service _ ⟨_, ⟨⟨given, hgiven⟩, rfl⟩, rfl⟩
    refine ⟨hservice, ?_, fun provider hprovider => ?_⟩
    · simpa only [hmem] using hsome
    · exact hall provider ((hmem service provider).mpr ⟨given, hgiven, hprovider⟩)
  · rintro h service _ ⟨_, ⟨⟨given, hgiven⟩, rfl⟩, rfl⟩
    obtain ⟨hservice, hsome, -⟩ := h service given hgiven
    refine ⟨hservice, ?_, fun provider hprovider => ?_⟩
    · simpa only [hmem] using hsome
    · obtain ⟨given, hgiven, hprovider⟩ := (hmem service provider).mp hprovider
      exact (h service given hgiven).2.2 provider hprovider

theorem problem?_ofEdits : (ofEdits owner edits).problem? = none ↔ Legal owner edits := by
  rw [problem?_eq_none, serviceProblem?_ofEdits, name_ofEdits, mainClass_ofEdits]
  simp only [mem_keys_requires, mem_exports_ofEdits, forall_exists_index]
  constructor
  · rintro ⟨hname, hrequires, hexports, hservices, hmainClass⟩
    exact {
      name := hname
      requires := hrequires
      exports := hexports
      services := fun service given h => (hservices service given h).1
      providers := fun service given h => (hservices service given h).2.2
      provided := fun service given h => (hservices service given h).2.1
      mainClass := hmainClass }
  · intro h
    exact ⟨h.name, h.requires, h.exports,
      fun service given hgiven =>
        ⟨h.services service given hgiven, h.provided service given hgiven,
          h.providers service given hgiven⟩,
      h.mainClass⟩

instance (owner : String) (edits : List Edit) : Decidable (Legal owner edits) :=
  decidable_of_iff _ problem?_ofEdits

/-! ## What is given -/

/-- The descriptor holds what is declared, and the dependency on the base module. -/
structure Declares (owner : String) (edits : List Edit) (d : Descriptor) : Prop where
  name : d.name = owner
  requires : ∀ dependency, (∃ given, .require dependency given ∈ edits) →
    ∃ modifiers, d.requires.get? dependency = some modifiers ∧
      ∀ m, modifiers.has m = true ↔ ∃ given, .require dependency given ∈ edits ∧ m ∈ given
  base : owner ≠ baseModule → (∀ given, .require baseModule given ∉ edits) →
    d.requires.get? baseModule = some { mandated := true }
  notRequired : ∀ dependency, (∀ given, .require dependency given ∉ edits) →
    (dependency = baseModule → owner = baseModule) → d.requires.get? dependency = none
  exports : ∀ package, package ∈ d.exports.toList ↔ .exportPackage package ∈ edits
  provides : ∀ service, d.provides.get? service =
    (allOf (Edit.providersFor? service) edits).map List.eraseDups
  versionText : d.versionText = lastOf Edit.versionText? edits
  version : d.version? = d.versionText.bind Version.parse?
  /-- A version that is given as such is kept as it is. -/
  givenVersion : (∀ v, .version v ∈ edits → ∃ text, Version.parse text = .ok v) →
    d.version? = (lastOf Edit.version? edits).join
  mainClass : d.mainClass = lastOf Edit.mainClass? edits
  isAutomatic : d.isAutomatic = (lastOf Edit.automatic? edits).getD false

theorem get?_requiresWithBase (d : Draft) (dependency : String) :
    d.requiresWithBase.get? dependency =
      if dependency = baseModule ∧ d.name ≠ baseModule then
        some ((d.requires.get? baseModule).getD { mandated := true })
      else d.requires.get? dependency := by
  by_cases h : d.name = baseModule <;> simp [requiresWithBase, h]

theorem get?_requiresWithBase_of_some {d : Draft} {modifiers : Modifiers}
    (h : d.requires.get? dependency = some modifiers) :
    d.requiresWithBase.get? dependency = some modifiers := by
  rw [get?_requiresWithBase]
  split
  next hbase => rw [← hbase.1, h, Option.getD_some]
  next => exact h

theorem version?_lastOf (h : ∀ v, .version v ∈ edits → ∃ text, Version.parse text = .ok v) :
    (lastOf Edit.versionText? edits).bind Version.parse? = (lastOf Edit.version? edits).join := by
  induction edits using List.reverseRecOn with
  | nil => rfl
  | append_singleton edits e ih =>
      rw [lastOf_concat, lastOf_concat]
      cases e with
      | version v =>
          obtain ⟨text, hparse⟩ := h v (by simp)
          have hv : Version.parse v.text = .ok v := by rw [Version.text_of_parse hparse, hparse]
          simp [Edit.versionText?, Edit.version?, Version.parse?, hv, Except.toOption]
      | versionText text => simp [Edit.versionText?, Edit.version?]
      | _ => exact ih fun v hv => h v (List.mem_append_left _ hv)

theorem declares_of_build {d : Descriptor} (h : (ofEdits owner edits).build = .ok d) :
    Declares owner edits d := by
  rw [build] at h
  split at h
  · cases h
  · obtain rfl := Except.ok.inj h
    exact {
      name := name_ofEdits owner edits
      requires := by
        rintro dependency ⟨given, hgiven⟩
        obtain ⟨modifiers, hget, hhas⟩ := get?_requires_of_mem owner hgiven
        exact ⟨modifiers, get?_requiresWithBase_of_some hget, hhas⟩
      base := by
        intro howner hbase
        rw [get?_requiresWithBase, name_ofEdits, if_pos ⟨rfl, howner⟩,
          get?_requires_eq_none.mpr hbase]
        rfl
      notRequired := by
        intro dependency hdependency howner
        rw [get?_requiresWithBase, name_ofEdits, if_neg (fun hbase => hbase.2 (howner hbase.1))]
        exact get?_requires_eq_none.mpr hdependency
      exports := fun _ => mem_exports_ofEdits
      provides := get?_provides_ofEdits owner edits
      versionText := versionText_ofEdits owner edits
      version := rfl
      givenVersion := by
        intro hversions
        rw [← version?_lastOf hversions, ← versionText_ofEdits owner edits]
        rfl
      mainClass := mainClass_ofEdits owner edits
      isAutomatic := isAutomatic_ofEdits owner edits }

/-- What is declared leaves nothing open. -/
theorem Declares.unique {d d' : Descriptor} (h : Declares owner edits d)
    (h' : Declares owner edits d') : d = d' := by
  have hrequires : d.requires = d'.requires := by
    apply NameMap.ext_get?
    intro dependency
    by_cases hgiven : ∃ given, .require dependency given ∈ edits
    · obtain ⟨modifiers, hget, hhas⟩ := h.requires dependency hgiven
      obtain ⟨modifiers', hget', hhas'⟩ := h'.requires dependency hgiven
      have hmodifiers : modifiers = modifiers' := Modifiers.ext_has fun m =>
        Bool.eq_iff_iff.mpr ((hhas m).trans (hhas' m).symm)
      rw [hget, hget', hmodifiers]
    · -- A dependency that is not declared is there only if it is the one on the base module.
      rw [not_exists] at hgiven
      by_cases hbase : dependency = baseModule ∧ owner ≠ baseModule
      · obtain ⟨rfl, howner⟩ := hbase
        rw [h.base howner hgiven, h'.base howner hgiven]
      · have howner : dependency = baseModule → owner = baseModule := by
          simpa using hbase
        rw [h.notRequired dependency hgiven howner, h'.notRequired dependency hgiven howner]
  have hexports : d.exports = d'.exports := NameSet.ext_toList fun package =>
    (h.exports package).trans (h'.exports package).symm
  have hprovides : d.provides = d'.provides := NameMap.ext_get? fun service =>
    (h.provides service).trans (h'.provides service).symm
  rw [Descriptor.mk.injEq]
  exact ⟨h.name.trans h'.name.symm, h.versionText.trans h'.versionText.symm, hrequires, hexports,
    hprovides, h.mainClass.trans h'.mainClass.symm, h.isAutomatic.trans h'.isAutomatic.symm⟩

/-! ## The order of the edits -/

/-- Both lists declare the same, though maybe in another order and with other repetitions. -/
structure SameDeclarations (edits edits' : List Edit) : Prop where
  requires : ∀ dependency,
    (∃ given, .require dependency given ∈ edits) ↔ ∃ given, .require dependency given ∈ edits'
  modifiers : ∀ dependency m, (∃ given, .require dependency given ∈ edits ∧ m ∈ given) ↔
    ∃ given, .require dependency given ∈ edits' ∧ m ∈ given
  exports : ∀ package, .exportPackage package ∈ edits ↔ .exportPackage package ∈ edits'
  providers : ∀ service,
    allOf (Edit.providersFor? service) edits = allOf (Edit.providersFor? service) edits'
  versionText : lastOf Edit.versionText? edits = lastOf Edit.versionText? edits'
  mainClass : lastOf Edit.mainClass? edits = lastOf Edit.mainClass? edits'
  isAutomatic : lastOf Edit.automatic? edits = lastOf Edit.automatic? edits'

/-- Edits may change places unless both set the same thing or both give providers of one service. -/
theorem SameDeclarations.of_perm (h : edits.Perm edits')
    (hproviders : ∀ service,
      edits.filterMap (Edit.providersFor? service) = edits'.filterMap (Edit.providersFor? service))
    (hversionText : edits.filterMap Edit.versionText? = edits'.filterMap Edit.versionText?)
    (hmainClass : edits.filterMap Edit.mainClass? = edits'.filterMap Edit.mainClass?)
    (hisAutomatic : edits.filterMap Edit.automatic? = edits'.filterMap Edit.automatic?) :
    SameDeclarations edits edits' where
  requires dependency := by simp only [h.mem_iff]
  modifiers dependency m := by simp only [h.mem_iff]
  exports package := h.mem_iff
  providers service := by rw [allOf, allOf, hproviders]
  versionText := by rw [lastOf, lastOf, hversionText]
  mainClass := by rw [lastOf, lastOf, hmainClass]
  isAutomatic := by rw [lastOf, lastOf, hisAutomatic]

theorem ofEdits_eq_of_same (owner : String) (h : SameDeclarations edits edits') :
    ofEdits owner edits = ofEdits owner edits' := by
  have hrequires : (ofEdits owner edits).requires = (ofEdits owner edits').requires := by
    apply NameMap.ext_get?
    intro dependency
    by_cases hgiven : ∃ given, .require dependency given ∈ edits
    · obtain ⟨given', hgiven'⟩ := (h.requires dependency).mp hgiven
      obtain ⟨given, hgiven⟩ := hgiven
      obtain ⟨modifiers, hget, hhas⟩ := get?_requires_of_mem owner hgiven
      obtain ⟨modifiers', hget', hhas'⟩ := get?_requires_of_mem owner hgiven'
      have hmodifiers : modifiers = modifiers' := Modifiers.ext_has fun m =>
        Bool.eq_iff_iff.mpr (((hhas m).trans (h.modifiers dependency m)).trans (hhas' m).symm)
      rw [hget, hget', hmodifiers]
    · have hgiven' := mt (h.requires dependency).mpr hgiven
      rw [not_exists] at hgiven hgiven'
      rw [get?_requires_eq_none.mpr hgiven, get?_requires_eq_none.mpr hgiven']
  have hexports : (ofEdits owner edits).exports = (ofEdits owner edits').exports :=
    NameSet.ext_toList fun package =>
      (mem_exports_ofEdits.trans (h.exports package)).trans mem_exports_ofEdits.symm
  have hprovides : (ofEdits owner edits).provides = (ofEdits owner edits').provides := by
    apply NameMap.ext_get?
    intro service
    rw [get?_provides_ofEdits, get?_provides_ofEdits, h.providers service]
  rw [Draft.mk.injEq]
  refine ⟨?_, ?_, hrequires, hexports, hprovides, ?_, ?_⟩
  · rw [name_ofEdits, name_ofEdits]
  · rw [versionText_ofEdits, versionText_ofEdits, h.versionText]
  · rw [mainClass_ofEdits, mainClass_ofEdits, h.mainClass]
  · rw [isAutomatic_ofEdits, isAutomatic_ofEdits, h.isAutomatic]

/-- A draft gives a descriptor exactly when what is declared is legal, and then it is the one
descriptor that holds what is declared. The order of the edits changes neither the descriptor nor
the fault that is found. -/
theorem build_ofEdits (owner : String) (edits : List Edit) :
    ((∃ d, (ofEdits owner edits).build = .ok d) ↔ Legal owner edits) ∧
    (∀ d, (ofEdits owner edits).build = .ok d ↔ Legal owner edits ∧ Declares owner edits d) ∧
    ∀ edits', SameDeclarations edits edits' →
      (ofEdits owner edits).build = (ofEdits owner edits').build := by
  have hok : (∃ d, (ofEdits owner edits).build = .ok d) ↔ Legal owner edits := by
    rw [← problem?_ofEdits, build]
    cases (ofEdits owner edits).problem? <;> simp
  refine ⟨hok, fun d => ⟨fun h => ⟨hok.mp ⟨d, h⟩, declares_of_build h⟩, ?_⟩, fun edits' h => ?_⟩
  · rintro ⟨hlegal, hd⟩
    obtain ⟨d', h'⟩ := hok.mpr hlegal
    rw [hd.unique (declares_of_build h')]
    exact h'
  · rw [ofEdits_eq_of_same owner h]

def sampleEdits : List Edit :=
  [.require "b" [.static], .require "b" [.transitive], .exportPackage "m.p", .versionText "1",
    .provide "m.S" ["m.P"], .versionText "2"]

def sampleReordered : List Edit :=
  [.versionText "1", .provide "m.S" ["m.P"], .require "b" [.transitive], .versionText "2",
    .exportPackage "m.p", .require "b" [.static]]

theorem sameDeclarations_sample : SameDeclarations sampleEdits sampleReordered := by
  refine .of_perm (by decide) (fun service => ?_) rfl rfl rfl
  by_cases h : "m.S" = service <;>
    simp [sampleEdits, sampleReordered, Edit.providersFor?, List.filterMap_cons, h]

theorem build_ofEdits_sample :
    SameDeclarations sampleEdits sampleReordered ∧
      (ofEdits "m" sampleEdits).build = (ofEdits "m" sampleReordered).build ∧
      ∃ d, (ofEdits "m" sampleEdits).build = .ok d ∧ Declares "m" sampleEdits d := by
  have hlegal : Legal "m" sampleEdits := by decide +kernel
  obtain ⟨hok, hdeclares, hsame⟩ := build_ofEdits "m" sampleEdits
  obtain ⟨d, hd⟩ := hok.mpr hlegal
  exact ⟨sameDeclarations_sample, hsame _ sameDeclarations_sample, d, hd, ((hdeclares d).mp hd).2⟩

end ModuleSearch.Draft
