import ModuleSearch.Descriptor.Document
import ModuleSearch.Proofs.Descriptor.Documents
import ModuleSearch.Proofs.Json.Lists
import ModuleSearch.Proofs.Json.Written

/-!
# Reading what is displayed

The displayed form of a descriptor says more than a document may: it has the version twice, and
marks automatic modules. Without that it is a document again (`Json.asDocument`), and decoding it
gives back the descriptor: `decode_asDocument`.
-/

namespace ModuleSearch

namespace Json

/-- The first member of an object with this key. -/
def member? (v : Json) (key : String) : Option Json :=
  match v with
  | object members => members.lookup key
  | _ => none

/-- An object without its members of this key. -/
def without (v : Json) (key : String) : Json :=
  match v with
  | object members => object (members.filter fun m => m.1 != key)
  | v => v

/-- Sets a member: in its place if the object has one of the key, else at the end. -/
def put (v : Json) (key : String) (value : Json) : Json :=
  match v with
  | object members =>
    if members.any fun m => m.1 == key then
      object (members.map fun m => if m.1 = key then (key, value) else m)
    else object (members ++ [(key, value)])
  | v => v

/-- The displayed form as a document: the version is the text as it was written. -/
def asDocument (shown : Json) : Json :=
  let kept := (shown.without "is_automatic").without "raw_version"
  match shown.member? "raw_version" with
  | some text => kept.put "version" text
  | none => kept.without "version"

theorem plain_strings (depth : Nat) (values : List String) : Plain (depth + 1) (strings values) :=
  .array (List.forall_mem_map.mpr fun value _ => .string value)

namespace Plain

variable {depth : Nat} {v value : Json}

theorem member? (h : Plain (depth + 1) v) {key : String} (hv : v.member? key = some value) :
    Plain depth value := by
  cases h with
  | @object depth members h =>
      rw [Json.member?, List.lookup_eq_some_iff] at hv
      obtain ⟨before, after, rfl, -⟩ := hv
      exact h (key, value) (by simp)
  | _ => cases hv

theorem without (h : Plain (depth + 1) v) (key : String) : Plain (depth + 1) (v.without key) := by
  cases h with
  | object h => exact .object fun m hm => h m (List.mem_filter.mp hm).1
  | array h => exact .array h
  | _ => constructor

theorem put (h : Plain (depth + 1) v) (key : String) (hvalue : Plain depth value) :
    Plain (depth + 1) (v.put key value) := by
  cases h with
  | @object depth members h =>
      rw [Json.put]
      split
      · refine .object (List.forall_mem_map.mpr fun m hm => ?_)
        split
        · exact hvalue
        · exact h m hm
      · exact .object (List.forall_mem_append.mpr ⟨h, by simpa using hvalue⟩)
  | array h => exact .array h
  | _ => constructor

theorem asDocument (h : Plain (depth + 1) v) : Plain (depth + 1) v.asDocument := by
  have hkept := (h.without "is_automatic").without "raw_version"
  rw [Json.asDocument]
  cases htext : v.member? "raw_version" with
  | none => exact hkept.without "version"
  | some text => exact hkept.put "version" (h.member? htext)

end Plain

end Json

namespace Descriptor

/-- The document that a descriptor comes from. -/
def document (d : Descriptor) : Document where
  name := d.name
  version := d.versionText
  requires := d.requires.entries.map fun e => ⟨e.1, e.2.toList.map Modifier.name⟩
  exports := d.exports.toList
  provides := d.provides
  mainClass := d.mainClass

theorem dependency?_requiresJson (name : String) (modifiers : Modifiers) :
    Document.dependency? (requiresJson name modifiers) =
      some ⟨name, modifiers.toList.map Modifier.name⟩ := by
  have h := Json.asStrings?_strings (modifiers.toList.map Modifier.name)
  simp [requiresJson, Document.dependency?, Document.occursOnce, List.lookup_cons,
    Json.asString?, h]

theorem ofJson?_asDocument (d : Descriptor) :
    Document.ofJson? d.toJson.asDocument = some d.document := by
  have hrequires : Document.dependencies?
      (.array (d.requires.entries.map fun e => requiresJson e.1 e.2)) = some d.document.requires :=
    mapM_map_some (fun e : String × Modifiers => dependency?_requiresJson e.1 e.2)
      d.requires.entries
  have hexports := Json.asStrings?_strings d.exports.toList
  have hprovides : Json.asStringLists?
      (.object (d.provides.entries.map fun e => (e.1, .strings e.2))) = some d.provides := by
    have hmembers := mapM_map_some (g := Json.stringListMember?)
      (f := fun e : String × List String => (e.1, .strings e.2)) (k := id)
      (fun e => by rw [Json.stringListMember?, Json.asStrings?_strings]; rfl) d.provides.entries
    rw [Json.asStringLists?, hmembers, List.map_id, Option.map_some, NameMap.ofList_entries]
  -- which members there are, and where the version stands, depends on what may be missing
  rcases hversion : d.versionText with _ | text
  · cases hmain : d.mainClass <;>
      simp [toJson, version?, hversion, hmain, optionalMember, Json.asDocument, Json.without,
        Json.member?, List.lookup_cons, Document.ofJson?, Document.ofMembers?,
        Document.fieldNames, Document.occursOnce, Json.asString?, Json.asOptionalString?,
        hrequires, hexports, hprovides, document]
  · cases hparse : Version.parse? text <;> cases hmain : d.mainClass <;>
      simp [toJson, version?, hversion, hparse, hmain, optionalMember, Json.asDocument,
        Json.without, Json.member?, Json.put, List.lookup_cons, Document.ofJson?,
        Document.ofMembers?, Document.fieldNames, Document.occursOnce, Json.asString?,
        Json.asOptionalString?, hrequires, hexports, hprovides, document]

/-- The edits that declare what the descriptor holds. -/
def edits (d : Descriptor) : List Draft.Edit :=
  d.versionText.toList.map .versionText ++
    d.requires.entries.map (fun e => .require e.1 e.2.toList) ++
    d.exports.toList.map .exportPackage ++ d.provides.entries.map (fun e => .provide e.1 e.2) ++
    d.mainClass.toList.map .mainClass

theorem edits_document (d : Descriptor) : d.document.edits = .ok d.edits := by
  have hmodifier : ∀ m : Modifier, Document.modifier m.name = .ok m := by
    intro m
    cases m <;> rfl
  have hrequires : d.document.requires.mapM Document.Dependency.edit =
      .ok (d.requires.entries.map fun e => .require e.1 e.2.toList) := by
    refine (mapM_map_congr fun e _ => ?_).trans List.mapM_pure
    have hmodifiers : (e.2.toList.map Modifier.name).mapM Document.modifier = .ok e.2.toList := by
      refine (mapM_map_congr fun m _ => hmodifier m).trans ?_
      exact (List.mapM_pure (f := id)).trans (by rw [List.map_id]; rfl)
    rw [Document.Dependency.edit, hmodifiers]
    rfl
  rw [Document.edits, hrequires]
  rfl

/-- The draft that holds what the descriptor holds but for the mark of an automatic module. -/
def draft (d : Descriptor) : Draft where
  name := d.name
  versionText := d.versionText
  requires := d.requires
  exports := d.exports
  provides := d.provides
  mainClass := d.mainClass

section Edits

open Draft

variable {d : Descriptor} {name : String}

theorem require_mem_edits {given : List Modifier} : .require name given ∈ d.edits ↔
    ∃ modifiers : Modifiers, d.requires.get? name = some modifiers ∧ modifiers.toList = given := by
  simp [edits, NameMap.get?_eq_some_iff]

theorem versionText_edits (d : Descriptor) : lastOf Edit.versionText? d.edits = d.versionText := by
  rw [lastOf, Document.filterMap_edits (fun _ _ => rfl) (fun _ => rfl) (edits_document d)]
  cases hversion : d.versionText <;>
    simp [document, hversion, Edit.versionText?, Function.comp_def]

theorem mainClass_edits (d : Descriptor) : lastOf Edit.mainClass? d.edits = d.mainClass := by
  rw [lastOf, Document.filterMap_edits (fun _ _ => rfl) (fun _ => rfl) (edits_document d)]
  cases hmainClass : d.mainClass <;>
    simp [document, hmainClass, Edit.mainClass?, Function.comp_def]

theorem automatic_edits (d : Descriptor) : lastOf Edit.automatic? d.edits = none := by
  rw [lastOf, Document.filterMap_edits (fun _ _ => rfl) (fun _ => rfl) (edits_document d)]
  simp [Edit.automatic?, Function.comp_def]

theorem requires_edits (d : Descriptor) : (ofEdits d.name d.edits).requires = d.requires := by
  refine NameMap.ext_get? fun name => ?_
  cases hget : d.requires.get? name with
  | none =>
      rw [get?_requires_eq_none]
      simp [require_mem_edits, hget]
  | some modifiers =>
      have hmem := require_mem_edits.mpr ⟨modifiers, hget, rfl⟩
      obtain ⟨found, hfound, hhas⟩ := get?_requires_of_mem d.name hmem
      have hall : ∀ m : Modifier, m ∈ Modifier.all := by
        intro m
        cases m <;> decide
      rw [hfound]
      refine congrArg some (Modifiers.ext_has fun m => Bool.eq_iff_iff.mpr ((hhas m).trans ?_))
      simp [require_mem_edits, hget, Modifiers.toList, hall]

theorem provides_edits (hnodup : ∀ name providers, d.provides.get? name = some providers →
    providers.Nodup) : (ofEdits d.name d.edits).provides = d.provides := by
  refine NameMap.ext_get? fun name => ?_
  rw [Document.get?_provides_of_edits d.name (edits_document d), document]
  cases hget : d.provides.get? name with
  | none => rfl
  | some providers => exact congrArg some (NameList.eraseDups_eq_self (hnodup name providers hget))

theorem ofEdits_edits (hnodup : ∀ name providers, d.provides.get? name = some providers →
    providers.Nodup) : ofEdits d.name d.edits = d.draft := by
  rw [Draft.mk.injEq]
  refine ⟨name_ofEdits _ _, ?_, requires_edits d, ?_, provides_edits hnodup, ?_, ?_⟩
  · exact (versionText_ofEdits _ _).trans (versionText_edits d)
  · exact NameSet.ext_toList fun _ =>
      mem_exports_ofEdits.trans (Document.exportPackage_mem_edits (edits_document d))
  · exact (mainClass_ofEdits _ _).trans (mainClass_edits d)
  · rw [isAutomatic_ofEdits, automatic_edits]
    rfl

end Edits

/-! ## What can be built -/

section Built

variable {owner : String} {edits : List Draft.Edit} {d : Descriptor}

theorem build_eq_ok_iff {draft : Draft} : draft.build = .ok d ↔ draft.problem? = none ∧
    d = ⟨draft.name, draft.versionText, draft.requiresWithBase, draft.exports, draft.provides,
      draft.mainClass, draft.isAutomatic⟩ := by
  rw [Draft.build]
  cases draft.problem? <;> simp [eq_comm]

theorem mem_keys_requiresWithBase {draft : Draft} {name : String}
    (h : name ∈ draft.requiresWithBase.keys) :
    name ∈ draft.requires.keys ∨ name = baseModule ∧ draft.name ≠ baseModule := by
  rw [NameMap.mem_keys, Draft.get?_requiresWithBase] at h
  split at h
  · rename_i hbase
    exact .inr hbase
  · exact .inl (NameMap.mem_keys.mpr h)

/-- What was built requires the base module already. -/
theorem requiresWithBase_draft {draft : Draft} (h : draft.build = .ok d) :
    d.draft.requiresWithBase = d.requires := by
  obtain ⟨-, rfl⟩ := build_eq_ok_iff.mp h
  refine NameMap.ext_get? fun name => ?_
  rw [Draft.get?_requiresWithBase, Descriptor.draft, Draft.get?_requiresWithBase,
    Draft.get?_requiresWithBase]
  by_cases hname : name = baseModule ∧ draft.name ≠ baseModule
  · simp [hname]
  · rw [if_neg hname]

theorem build_draft {draft : Draft} (h : draft.build = .ok d) :
    d.draft.build = .ok { d with isAutomatic := false } := by
  have hrequires := requiresWithBase_draft h
  obtain ⟨hproblem, rfl⟩ := build_eq_ok_iff.mp h
  obtain ⟨hname, hdependencies, hexports, hprovides, hmainClass⟩ :=
    Draft.problem?_eq_none.mp hproblem
  refine build_eq_ok_iff.mpr ⟨Draft.problem?_eq_none.mpr ⟨hname, ?_, hexports, hprovides,
    hmainClass⟩, ?_⟩
  · intro dependency hdependency
    obtain hmem | ⟨rfl, hne⟩ := mem_keys_requiresWithBase hdependency
    · exact hdependencies dependency hmem
    · exact ⟨by decide, Ne.symm hne⟩
  · rw [hrequires]
    rfl

theorem nodup_provides (h : (Draft.ofEdits owner edits).build = .ok d) {name : String}
    {providers : List String} (hget : d.provides.get? name = some providers) :
    providers.Nodup := by
  rw [(Draft.declares_of_build h).provides, Option.map_eq_some_iff] at hget
  obtain ⟨given, -, rfl⟩ := hget
  rw [← NameList.distinct_eq_eraseDups]
  exact NameList.nodup_distinct given

theorem toDescriptor_document (h : (Draft.ofEdits owner edits).build = .ok d) :
    d.document.toDescriptor = .ok { d with isAutomatic := false } := by
  have hname : d.document.name = d.name := rfl
  refine bind_eq_ok_iff.mpr ⟨d.edits, edits_document d, ?_⟩
  rw [hname, ofEdits_edits fun _ _ => nodup_provides h, build_draft h]

end Built

theorem plain_requiresJson (name : String) (modifiers : Modifiers) :
    Json.Plain 2 (requiresJson name modifiers) := by
  refine .object ?_
  simp [Json.Plain.string, Json.plain_strings]

theorem plain_toJson (d : Descriptor) : Json.Plain 4 d.toJson := by
  have hoptional : ∀ (key : String) (value : Option String), ∀ m ∈ optionalMember key value,
      Json.Plain 3 m.2 := by
    rintro key (_ | text) m hm
    · cases hm
    · obtain rfl := List.mem_singleton.mp hm
      exact .string text
  have hrequires :
      Json.Plain 3 (.array (d.requires.entries.map fun e => requiresJson e.1 e.2)) :=
    .array (List.forall_mem_map.mpr fun e _ => plain_requiresJson e.1 e.2)
  have hprovides : Json.Plain 3 (.object (d.provides.entries.map fun e => (e.1, .strings e.2))) :=
    .object (List.forall_mem_map.mpr fun e _ => Json.plain_strings 1 e.2)
  refine .object ?_
  simp only [List.forall_mem_append]
  refine ⟨⟨⟨⟨⟨?_, hoptional _ _⟩, hoptional _ _⟩, ?_⟩, hoptional _ _⟩, ?_⟩
  · simp [Json.Plain.string]
  · simp [hrequires, hprovides, Json.plain_strings]
  · simp [Json.Plain.bool]

/-- What is displayed of a descriptor that was built, as a document, is decoded to that descriptor,
but for the mark of an automatic module. -/
theorem decode_asDocument {owner : String} {edits : List Draft.Edit} {d : Descriptor}
    (h : (Draft.ofEdits owner edits).build = .ok d) :
    decode d.toJson.asDocument.pretty.toUTF8 = .ok { d with isAutomatic := false } ∧
      ∀ document, Json.parse? document = some d.toJson.asDocument →
        decode document = .ok { d with isAutomatic := false } := by
  have hdecode : ∀ document, Json.parse? document = some d.toJson.asDocument →
      decode document = .ok { d with isAutomatic := false } := by
    intro document hdocument
    rw [decode, hdocument, Option.bind_some, ofJson?_asDocument]
    exact toDescriptor_document h
  exact ⟨hdecode _ (Json.parse?_pretty (plain_toJson d).asDocument (by decide)), hdecode⟩

/-- Everything is given, and the version text, with a quote and a line feed, is no version. -/
def displayedEdits : List Draft.Edit :=
  [.automatic true, .versionText "\"x\n", .require "b" [.transitive, .static],
    .exportPackage "m.p", .provide "m.S" ["m.Q", "m.P"], .mainClass "m.Main"]

theorem decode_asDocument_sample : ∃ d, (Draft.ofEdits "m" displayedEdits).build = .ok d ∧
    (d.versionText = some "\"x\n" ∧ d.version? = none ∧ d.isAutomatic = true) ∧
      decode d.toJson.asDocument.pretty.toUTF8 = .ok { d with isAutomatic := false } := by
  have hbuild : ∃ d, (Draft.ofEdits "m" displayedEdits).build = .ok d ∧
      (d.versionText = some "\"x\n" ∧ d.version? = none ∧ d.isAutomatic = true) := by
    decide +kernel
  obtain ⟨d, hd, hd'⟩ := hbuild
  exact ⟨d, hd, hd', (decode_asDocument hd).1⟩

end Descriptor

end ModuleSearch
