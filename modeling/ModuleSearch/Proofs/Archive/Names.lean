import Mathlib.Data.List.Nodup
import ModuleSearch.Module.Content
import ModuleSearch.Proofs.Except

/-!
# The names of an archive

What is listed of an archive are the files under its prefix: `mem_names`. Each of them is found when
it is read, and none is listed twice.
-/

namespace ModuleSearch

namespace Zip

variable {z : Zip} {e e' : Entry}

theorem eq_of_name_eq (he : e ∈ z.entries) (he' : e' ∈ z.entries) (h : e.name = e'.name) :
    e = e' :=
  List.inj_on_of_nodup_map z.nodup_names he he' h

/-- An entry is found by its name. -/
theorem find?_eq_some_of_mem (h : e ∈ z.entries) : z.find? e.name = some e := by
  rw [find?]
  cases hfind : z.entries.find? fun e' => e'.name == e.name with
  | none => exact absurd (List.find?_eq_none.mp hfind e h) (by simp)
  | some e' =>
      have hname : e'.name = e.name := by simpa using List.find?_some hfind
      rw [eq_of_name_eq (List.mem_of_find?_eq_some hfind) h hname]

theorem read_of_mem (h : e ∈ z.entries) : z.read e.name = (z.readEntry e).map some := by
  rw [read, find?_eq_some_of_mem h]

end Zip

namespace Archive

/-- The name of a file; those of directories end with a slash. -/
def IsFileName (name : String) : Prop := name ≠ "" ∧ name.toList.getLast? ≠ some '/'

instance (name : String) : Decidable (IsFileName name) :=
  inferInstanceAs (Decidable (_ ∧ _))

variable {a : Archive} {format : ArchiveFormat} {name entry : String}

theorem getLast?_append (above : String) (h : name ≠ "") :
    (above ++ name).toList.getLast? = name.toList.getLast? := by
  have hne : name.toList ≠ [] := by simpa using h
  rw [String.toList_append, List.getLast?_append, Option.or_of_isSome]
  exact List.getLast?_isSome.mpr hne

theorem contentName?_eq_some_iff :
    contentName? format entry = some name ↔
      IsFileName name ∧ entry = format.contentPrefix ++ name := by
  rw [contentName?]
  constructor
  · intro h
    split at h
    · cases h
    · rename_i hfile
      split at h
      · cases h
      · cases h
      · rename_i rest hne hrest
        obtain rfl := Option.some.inj h
        have hentry : entry = format.contentPrefix ++ String.ofList rest := by
          rw [← String.toList_inj, Text.dropPrefix?_eq_some_iff.mp hrest]
          simp
        have hname : String.ofList rest ≠ "" := by
          simpa [String.ofList_eq_empty_iff] using hne
        refine ⟨⟨hname, ?_⟩, hentry⟩
        rwa [hentry, getLast?_append _ hname] at hfile
  · rintro ⟨⟨hne, hfile⟩, rfl⟩
    have hdrop : Text.dropPrefix? format.contentPrefix.toList
        (format.contentPrefix ++ name).toList = some name.toList :=
      Text.dropPrefix?_eq_some_iff.mpr String.toList_append
    rw [getLast?_append _ hne, if_neg hfile, hdrop]
    cases hname : name.toList with
    | nil => exact absurd (by simpa using hname) hne
    | cons c rest => exact congrArg some (hname ▸ String.ofList_toList)

/-- What is listed are the files under the prefix. -/
theorem mem_names :
    name ∈ a.names ↔ IsFileName name ∧ a.format.contentPrefix ++ name ∈ a.zip.names := by
  simp only [names, List.mem_filterMap, contentName?_eq_some_iff]
  constructor
  · rintro ⟨entry, hentry, hname, rfl⟩
    exact ⟨hname, hentry⟩
  · rintro ⟨hname, hentry⟩
    exact ⟨_, hentry, hname, rfl⟩

theorem nodup_names (a : Archive) : a.names.Nodup := by
  refine List.Pairwise.filterMap _ ?_ a.zip.nodup_names
  intro entry other hne name hname name' hname' heq
  rw [(contentName?_eq_some_iff.mp hname).2, (contentName?_eq_some_iff.mp hname').2, heq] at hne
  exact hne rfl

theorem read_eq_ok_iff {content : Option ByteArray} :
    a.read name = .ok content ↔ a.zip.read (a.format.contentPrefix ++ name) = .ok content := by
  rw [read]
  cases a.zip.read (a.format.contentPrefix ++ name) with
  | ok found => simp
  | error fault => cases fault <;> simp

theorem mem_names_of_read {content : ByteArray} (h : a.read name = .ok (some content))
    (hname : IsFileName name) : name ∈ a.names := by
  refine mem_names.mpr ⟨hname, Zip.mem_names_iff.mpr ?_⟩
  rw [read_eq_ok_iff.mp h]
  simp

theorem read_ne_none (h : name ∈ a.names) : a.read name ≠ .ok none := by
  rw [ne_eq, read_eq_ok_iff]
  exact Zip.mem_names_iff.mp (mem_names.mp h).2

theorem read_of_mem_entries {e : Zip.Entry} (he : e ∈ a.zip.entries)
    (hname : e.name = a.format.contentPrefix ++ name) :
    a.read name =
      match a.zip.readEntry e with
      | .ok content => .ok (some content)
      | .error .unsupported => .error (.badArchive a.path)
      | .error .corrupt => .error (.unreadable a.path) := by
  rw [read, ← hname, Zip.read_of_mem he]
  cases a.zip.readEntry e with
  | ok content => rfl
  | error fault => cases fault <;> rfl

/-- The bytes of a JMOD around a zip file. -/
def jmodBytes (zip : ByteArray) : ByteArray :=
  ⟨(ArchiveFormat.jmodMagic ++ zip.data.toList).toArray⟩

theorem jmodBytes_eq_append (zip : ByteArray) :
    jmodBytes zip = ⟨ArchiveFormat.jmodMagic.toArray⟩ ++ zip := by
  refine ByteArray.ext ?_
  simp [jmodBytes]

/-- Behind its first bytes a JMOD is read as a JAR is. -/
theorem ofBytes_jmod (path : Path) (zip : ByteArray) :
    ofBytes path .jmod (jmodBytes zip) =
      (ofBytes path .jar zip).map fun a => { a with format := .jmod } := by
  have hmagic : ArchiveFormat.startsWith (jmodBytes zip) ArchiveFormat.jmodMagic = true := by
    rw [ArchiveFormat.startsWith, jmodBytes_eq_append, ByteArray.extract_append_eq_left (by rfl)]
    decide +kernel
  have hzip : zipBytes path .jmod (jmodBytes zip) = .ok zip := by
    rw [zipBytes, if_pos hmagic, jmodBytes_eq_append]
    exact congrArg Except.ok
      (ByteArray.extract_append_eq_right (by rfl) (by rw [ByteArray.size_append]))
  rw [ofBytes, hzip, ofBytes, zipBytes]
  cases hparse : Zip.parse? zip <;> simp [bind, Except.bind, hparse] <;> rfl

theorem of_ofBytes {path : Path} {bytes : ByteArray} (h : ofBytes path format bytes = .ok a) :
    a.path = path ∧ a.format = format := by
  rw [ofBytes, bind_eq_ok_iff] at h
  obtain ⟨bytes, -, h⟩ := h
  split at h
  · obtain rfl := Except.ok.inj h
    exact ⟨rfl, rfl⟩
  · cases h

theorem of_load {storage : Storage} {path : Path} {format : ArchiveFormat}
    (h : load storage path format = .ok a) : a.path = path ∧ a.format = format := by
  rw [load] at h
  split at h
  · exact of_ofBytes h
  · cases h

end Archive

end ModuleSearch
