import ModuleSearch.Descriptor.Document
import ModuleSearch.Proofs.Descriptor.Build
import ModuleSearch.Proofs.Except

/-!
# What documents declare

The edits of a document are read off its fields. Documents that require, export and provide the
same, in whatever order and however often they say so, give the same descriptor:
`Same.toDescriptor_eq_ok_iff`.
-/

namespace ModuleSearch

namespace Document

open Draft (Edit)

variable {α : Type} {a b : Document} {r : Dependency} {name text : String} {edits : List Edit}
  {m : Modifier} {d : Descriptor}

/-- What a dependency demands: a module, and each modifier with it. -/
def Dependency.demands (r : Dependency) : List (String × Option String) :=
  (r.name, none) :: r.modifiers.map fun text => (r.name, some text)

theorem Dependency.mem_demands_none : (name, none) ∈ r.demands ↔ r.name = name := by
  simp [demands, eq_comm]

theorem Dependency.mem_demands_some :
    (name, some text) ∈ r.demands ↔ r.name = name ∧ text ∈ r.modifiers := by
  simp [demands, and_comm]

/-- What all dependencies of a document demand. -/
def demands (a : Document) : List (String × Option String) := a.requires.flatMap Dependency.demands

theorem mem_demands_none : (name, none) ∈ a.demands ↔ ∃ r ∈ a.requires, r.name = name := by
  simp only [demands, List.mem_flatMap, Dependency.mem_demands_none]

theorem mem_demands_some : (name, some text) ∈ a.demands ↔
    ∃ r ∈ a.requires, r.name = name ∧ text ∈ r.modifiers := by
  simp only [demands, List.mem_flatMap, Dependency.mem_demands_some]

/-! ## The edits of a document -/

theorem edits_eq_ok_iff : a.edits = .ok edits ↔
    ∃ requires, a.requires.mapM Dependency.edit = .ok requires ∧
      a.version.toList.map .versionText ++ requires ++ a.exports.map .exportPackage ++
        a.provides.entries.map (fun e => .provide e.1 e.2) ++
          a.mainClass.toList.map .mainClass = edits := by
  rw [Document.edits, bind_eq_ok_iff]
  simp only [pure, Except.pure, Except.ok.injEq]

theorem edit_eq_ok_iff {e : Edit} : r.edit = .ok e ↔
    ∃ given, r.modifiers.mapM modifier = .ok given ∧ .require r.name given = e := by
  rw [Dependency.edit, bind_eq_ok_iff]
  simp only [pure, Except.pure, Except.ok.injEq]

/-- There are edits if all modifiers are known. -/
theorem exists_edits_iff : (∃ edits, a.edits = .ok edits) ↔
    ∀ name text, (name, some text) ∈ a.demands → ∃ m, modifier text = .ok m := by
  have hedit : ∀ r : Dependency, (∃ e, r.edit = .ok e) ↔
      ∀ text ∈ r.modifiers, ∃ m, modifier text = .ok m := by
    intro r
    rw [Dependency.edit, exists_bind_pure_eq_ok_iff, exists_mapM_eq_ok_iff]
  rw [Document.edits, exists_bind_pure_eq_ok_iff, exists_mapM_eq_ok_iff]
  simp only [hedit, mem_demands_some]
  constructor
  · rintro h name text ⟨r, hr, -, htext⟩
    exact h r hr text htext
  · exact fun h r hr text htext => h r.name text ⟨r, hr, rfl, htext⟩

theorem require_mem_edits (h : a.edits = .ok edits) {given : List Modifier} :
    .require name given ∈ edits ↔
      ∃ r ∈ a.requires, r.name = name ∧ r.modifiers.mapM modifier = .ok given := by
  obtain ⟨requires, hrequires, rfl⟩ := edits_eq_ok_iff.mp h
  have hmem : .require name given ∈ requires ↔
      ∃ r ∈ a.requires, r.name = name ∧ r.modifiers.mapM modifier = .ok given := by
    rw [mem_of_mapM_eq_ok hrequires]
    refine exists_congr fun r => and_congr_right fun _ => ?_
    rw [edit_eq_ok_iff]
    constructor
    · rintro ⟨given', hgiven, heq⟩
      obtain ⟨rfl, rfl⟩ := Edit.require.inj heq
      exact ⟨rfl, hgiven⟩
    · rintro ⟨rfl, hgiven⟩
      exact ⟨given, hgiven, rfl⟩
  simpa using hmem

theorem exists_given (h : a.edits = .ok edits) (hr : r ∈ a.requires) :
    ∃ given, .require r.name given ∈ edits ∧ r.modifiers.mapM modifier = .ok given := by
  have hknown := exists_edits_iff.mp ⟨edits, h⟩
  obtain ⟨given, hgiven⟩ := exists_mapM_eq_ok_iff.mpr fun text htext =>
    hknown r.name text (mem_demands_some.mpr ⟨r, hr, rfl, htext⟩)
  exact ⟨given, (require_mem_edits h).mpr ⟨r, hr, rfl, hgiven⟩, hgiven⟩

theorem exists_require_mem_edits (h : a.edits = .ok edits) :
    (∃ given, .require name given ∈ edits) ↔ (name, none) ∈ a.demands := by
  rw [mem_demands_none]
  constructor
  · rintro ⟨given, hgiven⟩
    obtain ⟨r, hr, hname, -⟩ := (require_mem_edits h).mp hgiven
    exact ⟨r, hr, hname⟩
  · rintro ⟨r, hr, rfl⟩
    obtain ⟨given, hgiven, -⟩ := exists_given h hr
    exact ⟨given, hgiven⟩

theorem exists_modifier_mem_edits (h : a.edits = .ok edits) :
    (∃ given, .require name given ∈ edits ∧ m ∈ given) ↔
      ∃ text, (name, some text) ∈ a.demands ∧ modifier text = .ok m := by
  simp only [mem_demands_some]
  constructor
  · rintro ⟨given, hgiven, hm⟩
    obtain ⟨r, hr, hname, hmodifiers⟩ := (require_mem_edits h).mp hgiven
    obtain ⟨text, htext, hmodifier⟩ := (mem_of_mapM_eq_ok hmodifiers).mp hm
    exact ⟨text, ⟨r, hr, hname, htext⟩, hmodifier⟩
  · rintro ⟨text, ⟨r, hr, rfl, htext⟩, hmodifier⟩
    obtain ⟨given, hgiven, hmodifiers⟩ := exists_given h hr
    exact ⟨given, hgiven, (mem_of_mapM_eq_ok hmodifiers).mpr ⟨text, htext, hmodifier⟩⟩

theorem exportPackage_mem_edits (h : a.edits = .ok edits) :
    .exportPackage name ∈ edits ↔ name ∈ a.exports := by
  obtain ⟨requires, hrequires, rfl⟩ := edits_eq_ok_iff.mp h
  have hnot : .exportPackage name ∉ requires := by
    rw [mem_of_mapM_eq_ok hrequires]
    rintro ⟨r, -, hedit⟩
    obtain ⟨given, -, heq⟩ := edit_eq_ok_iff.mp hedit
    cases heq
  simp [hnot]

/-- The other edits are those of the version, the services and the main class. -/
theorem filterMap_edits {f : Edit → Option α}
    (hrequire : ∀ name given, f (.require name given) = none)
    (hexport : ∀ package, f (.exportPackage package) = none) (h : a.edits = .ok edits) :
    edits.filterMap f = (a.version.toList.map Edit.versionText ++
      a.provides.entries.map (fun e => Edit.provide e.1 e.2) ++
        a.mainClass.toList.map Edit.mainClass).filterMap f := by
  obtain ⟨requires, hrequires, rfl⟩ := edits_eq_ok_iff.mp h
  have hnone : requires.filterMap f = [] := by
    refine List.filterMap_eq_nil_iff.mpr fun e he => ?_
    obtain ⟨r, -, hedit⟩ := (mem_of_mapM_eq_ok hrequires).mp he
    obtain ⟨given, -, rfl⟩ := edit_eq_ok_iff.mp hedit
    exact hrequire r.name given
  simp [List.filterMap_append, hnone, hexport]

/-! ## Documents that say the same -/

/-- Both documents say the same, though maybe in another order and with other repetitions. -/
structure Same (a b : Document) : Prop where
  name : a.name = b.name
  version : a.version = b.version
  demands : ∀ s, s ∈ a.demands ↔ s ∈ b.demands
  exports : ∀ package, package ∈ a.exports ↔ package ∈ b.exports
  provides : a.provides = b.provides
  mainClass : a.mainClass = b.mainClass

namespace Same

theorem refl (a : Document) : Same a a := ⟨rfl, rfl, fun _ => .rfl, fun _ => .rfl, rfl, rfl⟩

theorem symm (h : Same a b) : Same b a :=
  ⟨h.name.symm, h.version.symm, fun s => (h.demands s).symm,
    fun package => (h.exports package).symm, h.provides.symm, h.mainClass.symm⟩

theorem sameDeclarations {edits' : List Edit} (h : Same a b) (ha : a.edits = .ok edits)
    (hb : b.edits = .ok edits') : Draft.SameDeclarations edits edits' := by
  have hrest : ∀ {α : Type} {f : Edit → Option α}, (∀ name given, f (.require name given) = none) →
      (∀ package, f (.exportPackage package) = none) → edits.filterMap f = edits'.filterMap f := by
    intro α f hrequire hexport
    rw [filterMap_edits hrequire hexport ha, filterMap_edits hrequire hexport hb, h.version,
      h.provides, h.mainClass]
  refine {
    requires := fun dependency => ?_
    modifiers := fun dependency m => ?_
    exports := fun package => ?_
    providers := fun service => ?_
    versionText := ?_
    mainClass := ?_
    isAutomatic := ?_ }
  · rw [exists_require_mem_edits ha, exists_require_mem_edits hb, h.demands]
  · simp only [exists_modifier_mem_edits ha, exists_modifier_mem_edits hb, h.demands]
  · rw [exportPackage_mem_edits ha, exportPackage_mem_edits hb, h.exports]
  · rw [Draft.allOf, Draft.allOf, hrest (fun _ _ => rfl) fun _ => rfl]
  all_goals rw [Draft.lastOf, Draft.lastOf, hrest (fun _ _ => rfl) fun _ => rfl]

theorem toDescriptor_eq_ok (h : Same a b) (hd : a.toDescriptor = .ok d) :
    b.toDescriptor = .ok d := by
  obtain ⟨edits, hedits, hbuild⟩ := bind_eq_ok_iff.mp hd
  have hknown := exists_edits_iff.mp ⟨edits, hedits⟩
  obtain ⟨edits', hedits'⟩ := (exists_edits_iff (a := b)).mpr fun name text htext =>
    hknown name text ((h.demands _).mpr htext)
  refine bind_eq_ok_iff.mpr ⟨edits', hedits', ?_⟩
  rwa [← h.name, ← Draft.ofEdits_eq_of_same a.name (h.sameDeclarations hedits hedits')]

theorem toDescriptor_eq_ok_iff (h : Same a b) :
    a.toDescriptor = .ok d ↔ b.toDescriptor = .ok d :=
  ⟨h.toDescriptor_eq_ok, h.symm.toDescriptor_eq_ok⟩

end Same

/-! ## What a document gives as it is -/

theorem isAutomatic_of_toDescriptor (h : a.toDescriptor = .ok d) : d.isAutomatic = false := by
  obtain ⟨edits, hedits, hbuild⟩ := bind_eq_ok_iff.mp h
  rw [(Draft.declares_of_build hbuild).isAutomatic, Draft.lastOf,
    filterMap_edits (fun _ _ => rfl) (fun _ => rfl) hedits]
  simp [Edit.automatic?, Function.comp_def]

theorem filterMap_providersFor {service : String} {entries : List (String × List String)}
    (h : entries.Pairwise fun a b => a.1 < b.1) :
    (entries.map fun e => Edit.provide e.1 e.2).filterMap (Edit.providersFor? service) =
      (NameMap.lookup service entries).toList := by
  induction entries with
  | nil => rfl
  | cons e rest ih =>
      obtain ⟨he, hrest⟩ := List.pairwise_cons.mp h
      rw [List.map_cons, List.filterMap_cons, ih hrest, NameMap.lookup]
      by_cases hservice : e.1 = service
      · subst hservice
        rw [NameMap.lookup_eq_none_of_lt he]
        simp [Edit.providersFor?]
      · simp [Edit.providersFor?, hservice]

theorem providersFor_edits (h : a.edits = .ok edits) (service : String) :
    edits.filterMap (Edit.providersFor? service) = (a.provides.get? service).toList := by
  rw [filterMap_edits (fun _ _ => rfl) (fun _ => rfl) h, List.filterMap_append,
    List.filterMap_append, filterMap_providersFor a.provides.sorted]
  simp [Edit.providersFor?, NameMap.get?, Function.comp_def]

theorem get?_provides_of_edits (owner : String) (h : a.edits = .ok edits) (service : String) :
    (Draft.ofEdits owner edits).provides.get? service =
      (a.provides.get? service).map List.eraseDups := by
  rw [Draft.get?_provides_ofEdits, Draft.allOf, providersFor_edits h]
  cases a.provides.get? service <;> simp

/-- A service has the providers that are listed, in their order and without later repeats. -/
theorem get?_provides_of_toDescriptor (h : a.toDescriptor = .ok d) (service : String) :
    d.provides.get? service = (a.provides.get? service).map List.eraseDups := by
  obtain ⟨edits, hedits, hbuild⟩ := bind_eq_ok_iff.mp h
  rw [(Draft.declares_of_build hbuild).provides, ← Draft.get?_provides_ofEdits a.name,
    get?_provides_of_edits a.name hedits]

end Document

namespace Descriptor

variable {document : ByteArray} {d : Descriptor}

theorem decode_eq_ok_iff : decode document = .ok d ↔
    ∃ a, (Json.parse? document).bind Document.ofJson? = some a ∧ a.toDescriptor = .ok d := by
  rw [decode]
  cases (Json.parse? document).bind Document.ofJson? <;> simp

/-- No document declares an automatic module. -/
theorem isAutomatic_of_decode (h : decode document = .ok d) : d.isAutomatic = false := by
  obtain ⟨a, -, ha⟩ := decode_eq_ok_iff.mp h
  exact Document.isAutomatic_of_toDescriptor ha

end Descriptor

end ModuleSearch
