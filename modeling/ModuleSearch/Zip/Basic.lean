import ModuleSearch.Zip.Directory
import ModuleSearch.Zip.Inflate

/-!
# Zip files

`Zip.parse?` reads the directory of a zip file, `Zip.read` the data of one entry.

Main statements: the entries of a zip file have distinct names (a field of `Zip`), and
`mem_names_iff`: reading finds exactly the names that are listed.
-/

namespace ModuleSearch

/-- A zip file and its entries in the order of its directory. -/
structure Zip where
  bytes : ByteArray
  entries : List Zip.Entry
  nodup_names : (entries.map Zip.Entry.name).Nodup

inductive Zip.ReadFault where
  /-- The data have no header, or are encrypted or compressed by an unknown method. -/
  | unsupported
  | corrupt
  deriving DecidableEq, Repr

namespace Zip

/-- An entry takes the place of the one of its name, or the last place. -/
def put (entry : Entry) : List Entry → List Entry
  | [] => [entry]
  | e :: rest => if e.name = entry.name then entry :: rest else e :: put entry rest

theorem mem_names_put {entry : Entry} {entries : List Entry} {name : String} :
    name ∈ (put entry entries).map Entry.name ↔ name = entry.name ∨ name ∈ entries.map Entry.name := by
  induction entries with
  | nil => simp [put]
  | cons e rest ih =>
    unfold put
    split
    · rename_i h
      simp [h]
    · simp only [List.map_cons, List.mem_cons, ih]
      grind

theorem nodup_put (entry : Entry) {entries : List Entry} (h : (entries.map Entry.name).Nodup) :
    ((put entry entries).map Entry.name).Nodup := by
  induction entries with
  | nil => simp [put]
  | cons e rest ih =>
    obtain ⟨he, hrest⟩ := List.nodup_cons.1 h
    unfold put
    split
    · rename_i hn
      rw [List.map_cons, ← hn]
      exact h
    · rename_i hn
      refine List.nodup_cons.2 ⟨fun hm => ?_, ih hrest⟩
      rcases mem_names_put.1 hm with hm | hm
      · exact hn hm
      · exact he hm

/-- Of entries with one name the last stands at the place of the first. -/
def collect (entries : List Entry) : List Entry := entries.foldl (fun done e => put e done) []

theorem nodup_collect (entries : List Entry) : ((collect entries).map Entry.name).Nodup := by
  unfold collect
  have : ∀ (rest done : List Entry), (done.map Entry.name).Nodup →
      ((rest.foldl (fun done e => put e done) done).map Entry.name).Nodup := by
    intro rest
    induction rest with
    | nil => exact fun _ h => h
    | cons e rest ih => exact fun done h => ih _ (nodup_put e h)
  exact this entries [] List.nodup_nil

def parse? (bytes : ByteArray) : Option Zip :=
  (Directory.search? bytes).map fun entries => ⟨bytes, collect entries, nodup_collect entries⟩

def names (z : Zip) : List String := z.entries.map Entry.name

/-- The data of an entry as they are stored, as far as the file goes. -/
def stored? (z : Zip) (e : Entry) : Option ByteArray :=
  (dataStart? z.bytes e.header).map fun start =>
    z.bytes.extract start (min (start + e.size) z.bytes.size)

/-- The methods of data that are stored as they are, and of deflated data. -/
def plainMethod : Nat := 0

def deflateMethod : Nat := 8

def Entry.isReadable (e : Entry) : Bool :=
  !e.isEncrypted && !e.isSealed && (e.method == plainMethod || e.method == deflateMethod)

def unpack? (method : Nat) (data : ByteArray) : Option ByteArray :=
  if method = plainMethod then some data else Inflate.inflate? data

/-- The data of an entry must be those of its checksum. -/
def unpackEntry (e : Entry) (data : ByteArray) : Except ReadFault ByteArray :=
  match unpack? e.method data with
  | some data => if Crc32.checksum data = e.checksum then .ok data else .error .corrupt
  | none => .error .corrupt

def readEntry (z : Zip) (e : Entry) : Except ReadFault ByteArray :=
  match z.stored? e with
  | some data => if e.isReadable then unpackEntry e data else .error .unsupported
  | none => .error .unsupported

def find? (z : Zip) (name : String) : Option Entry := z.entries.find? fun e => e.name == name

/-- The data of the entry of a name, nothing if there is no such entry. -/
def read (z : Zip) (name : String) : Except ReadFault (Option ByteArray) :=
  match z.find? name with
  | some e => (z.readEntry e).map some
  | none => .ok none

/-- Reading answers for exactly the names that are listed. -/
theorem mem_names_iff {z : Zip} {name : String} : name ∈ z.names ↔ z.read name ≠ .ok none := by
  unfold read
  cases h : z.find? name with
  | none =>
    have h := List.find?_eq_none.1 h
    simp only [names, List.mem_map, ne_eq, not_true_eq_false, iff_false, not_exists, not_and]
    exact fun e he hn => h e he (by simp [hn])
  | some e =>
    have hm := List.mem_of_find?_eq_some h
    have hn : e.name = name := by simpa using List.find?_some h
    have : name ∈ z.names := List.mem_map.2 ⟨e, hm, hn⟩
    simp only [this, true_iff]
    cases z.readEntry e <;> simp [Except.map]

end Zip

end ModuleSearch
