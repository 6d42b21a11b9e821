import Mathlib.Data.List.Basic
import ModuleSearch.Proofs.Archive.Names

/-!
# The files of a zip file

`Zip.Holds` says which files lie under a prefix of a zip file, and `Zip.pack` makes a zip file of
some files.
-/

namespace ModuleSearch.Zip

variable {z : Zip} {above name : String} {files : NameMap ByteArray}

/-- The entries of a zip file under a prefix that are files are these. -/
structure Holds (z : Zip) (above : String) (files : NameMap ByteArray) : Prop where
  read : ∀ name content, files.get? name = some content →
    z.read (above ++ name) = .ok (some content)
  mem_keys : ∀ name, Archive.IsFileName name → above ++ name ∈ z.names → name ∈ files.keys

theorem Holds.read_eq (h : z.Holds above files)
    (hname : Archive.IsFileName name) : z.read (above ++ name) = .ok (files.get? name) := by
  cases hget : files.get? name with
  | some content => exact h.read name content hget
  | none =>
      have hmem : above ++ name ∉ z.names := fun hmem => by
        have := NameMap.mem_keys.mp (h.mem_keys name hname hmem)
        simp [hget] at this
      simpa using Zip.mem_names_iff.not.mp hmem

theorem Holds.mem_names (h : z.Holds above files)
    (hmem : name ∈ files.keys) : above ++ name ∈ z.names := by
  obtain ⟨content, hcontent⟩ := Option.isSome_iff_exists.mp (NameMap.mem_keys.mp hmem)
  rw [Zip.mem_names_iff, h.read name content hcontent]
  simp

theorem holds_iff : z.Holds above files ↔
    (∀ e ∈ files.entries, z.read (above ++ e.1) = .ok (some e.2)) ∧
      ∀ entry ∈ z.names, ∀ rest ∈ Text.dropPrefix? above.toList entry.toList,
        Archive.IsFileName (String.ofList rest) → String.ofList rest ∈ files.keys := by
  constructor
  · rintro ⟨hread, hmem⟩
    refine ⟨fun e he => hread e.1 e.2 (NameMap.get?_eq_some_iff.mpr he), ?_⟩
    intro entry hentry rest hrest hname
    refine hmem _ hname ?_
    rw [Option.mem_def, Text.dropPrefix?_eq_some_iff] at hrest
    rwa [← String.ofList_toList (s := above), ← String.ofList_append, ← hrest, String.ofList_toList]
  · rintro ⟨hread, hmem⟩
    refine ⟨fun name content hcontent => hread _ (NameMap.get?_eq_some_iff.mp hcontent), ?_⟩
    intro name hname hentry
    have hdrop : Text.dropPrefix? above.toList (above ++ name).toList = some name.toList :=
      Text.dropPrefix?_eq_some_iff.mpr String.toList_append
    simpa using hmem _ hentry _ hdrop (by simpa using hname)

instance (z : Zip) (above : String) (files : NameMap ByteArray) : Decidable (z.Holds above files) :=
  letI : DecidableEq ByteArray := ByteArray.instDecidableEq
  decidable_of_iff _ holds_iff.symm

/-! ## Packing -/

/-- The lowest bytes of a number, the lowest first. -/
def littleEndian : Nat → Nat → List UInt8
  | 0, _ => []
  | n + 1, number => number.toUInt8 :: littleEndian n (number / 256)

/-- What the header of a file and its entry in the directory have in common. The method is zero, as
the data are stored as they are. -/
def fileFields (name : String) (content : ByteArray) : List UInt8 :=
  [20, 0, 0, 0, 0, 0, 0, 0, 0, 0] ++ littleEndian 4 (Crc32.checksum content).toNat ++
    littleEndian 4 content.size ++ littleEndian 4 content.size ++
      littleEndian 2 name.utf8ByteSize ++ [0, 0]

def fileData (name : String) (content : ByteArray) : List UInt8 :=
  littleEndian 4 dataMagic ++ fileFields name content ++ name.toUTF8.toList ++ content.toList

def directoryEntry (header : Nat) (name : String) (content : ByteArray) : List UInt8 :=
  littleEndian 4 entryMagic ++ [20, 0] ++ fileFields name content ++ List.replicate 10 0 ++
    littleEndian 4 header ++ name.toUTF8.toList

/-- The data of some files from a place on, and their directory. -/
def packFrom : Nat → List (String × ByteArray) → List UInt8 × List UInt8
  | _, [] => ([], [])
  | place, (name, content) :: rest =>
    let first := fileData name content
    let (data, directory) := packFrom (place + first.length) rest
    (first ++ data, directoryEntry place name content ++ directory)

/-- A zip file of some files with names in ASCII. It does not hold so many that a wide end record
would be needed. -/
def pack (files : List (String × ByteArray)) : ByteArray :=
  let (data, directory) := packFrom 0 files
  let endRecord := littleEndian 4 Directory.endMagic ++ [0, 0, 0, 0] ++
    littleEndian 2 files.length ++ littleEndian 2 files.length ++
      littleEndian 4 directory.length ++ littleEndian 4 data.length ++ [0, 0]
  ⟨(data ++ directory ++ endRecord).toArray⟩

end ModuleSearch.Zip
