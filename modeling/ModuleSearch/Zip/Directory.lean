import ModuleSearch.Zip.Entry

/-!
# Directories of zip files

The directory of a zip file is found from the end: an end record says where it stands and how many
entries it has. If these numbers do not fit there, a wide end record holds them, and a locator
right before the end record says where that one stands. Bytes may stand before the zip file, and
then all places are too small by their number; where the sought record is found tells this shift.

`search?` takes the last end record that leads to a directory that can be read.
-/

namespace ModuleSearch.Zip

namespace Directory

def endMagic : Nat := 0x06054B50

def locatorMagic : Nat := 0x07064B50

def wideEndMagic : Nat := 0x06064B50

/-- The first of the `n` places from `start` on where something is found. -/
def firstAt? {α : Type} (found? : Nat → Option α) (start : Nat) : Nat → Option α
  | 0 => none
  | n + 1 => (found? start).or (firstAt? found? (start + 1) n)

/-- The last of the places below `n` where something is found. -/
def lastBelow? {α : Type} (found? : Nat → Option α) : Nat → Option α
  | 0 => none
  | n + 1 => (found? n).or (lastBelow? found? n)

/-- Where a directory stands in the file, how many entries it has, and the shift of all places. -/
structure Span where
  start : Nat
  count : Nat
  shift : Nat
  deriving DecidableEq, Repr

/-- The end record; `count` is the number of entries on this disk. -/
structure EndRecord where
  disk : Nat
  directoryDisk : Nat
  count : Nat
  total : Nat
  directoryStart : Nat
  deriving DecidableEq, Repr

/-- The end record at a place; it and its comment must fit. -/
def endRecord? (bytes : ByteArray) (start : Nat) : Option EndRecord := do
  guard ((← double? bytes start) = endMagic)
  let disk ← word? bytes (start + 4)
  let directoryDisk ← word? bytes (start + 6)
  let count ← word? bytes (start + 8)
  let total ← word? bytes (start + 10)
  let directoryStart ← double? bytes (start + 16)
  let comment ← word? bytes (start + 20)
  guard (start + 22 + comment ≤ bytes.size)
  return { disk, directoryDisk, count, total, directoryStart }

/-- Whether one of the numbers that are sought may stand in a wide end record. -/
def EndRecord.mayBeWide (r : EndRecord) : Bool := r.total == maxWord || r.directoryStart == maxDouble

/-- Where the directory of an end record stands. The first entry from the stated place on is its
first one; without entries it ends where the record starts. -/
def EndRecord.span? (r : EndRecord) (bytes : ByteArray) (place : Nat) : Option Span := do
  guard (r.disk = r.directoryDisk)
  if r.total = 0 then
    let shift := place - r.directoryStart
    return { start := r.directoryStart + shift, count := r.count, shift }
  else
    let start ← firstAt? (fun start => do guard ((← double? bytes start) = entryMagic); return start)
      r.directoryStart (place - r.directoryStart)
    return { start, count := r.count, shift := start - r.directoryStart }

structure Locator where
  directoryDisk : Nat
  record : Nat
  disks : Nat
  deriving DecidableEq, Repr

def locatorSize : Nat := 20

def locator? (bytes : ByteArray) (start : Nat) : Option Locator := do
  guard ((← double? bytes start) = locatorMagic)
  let directoryDisk ← double? bytes (start + 4)
  let record ← quad? bytes (start + 8)
  let disks ← double? bytes (start + 16)
  return { directoryDisk, record, disks }

structure WideEndRecord where
  /-- The number of bytes that follow the field of this number. -/
  size : Nat
  disk : Nat
  directoryDisk : Nat
  count : Nat
  total : Nat
  directoryStart : Nat
  deriving DecidableEq, Repr

def wideEndRecord? (bytes : ByteArray) (start : Nat) : Option WideEndRecord := do
  guard ((← double? bytes start) = wideEndMagic)
  let size ← quad? bytes (start + 4)
  let disk ← double? bytes (start + 16)
  let directoryDisk ← double? bytes (start + 20)
  let count ← quad? bytes (start + 24)
  let total ← quad? bytes (start + 32)
  let directoryStart ← quad? bytes (start + 48)
  return { size, disk, directoryDisk, count, total, directoryStart }

/-- Whether a wide end record at a place goes with its locator: it ends where the locator starts,
and the directory has room before it. -/
def Locator.accepts (l : Locator) (locator place : Nat) (r : WideEndRecord) : Bool :=
  r.directoryDisk == l.directoryDisk && 44 ≤ r.size && place + 12 + r.size == locator &&
    r.total * entrySize + r.directoryStart ≤ place

/-- The wide end record that a locator leads to, and its place. -/
def Locator.record? (l : Locator) (bytes : ByteArray) (locator : Nat) :
    Option (WideEndRecord × Nat) :=
  firstAt? (fun place => do
    let record ← wideEndRecord? bytes place
    guard (l.accepts locator place record)
    return (record, place)) l.record (locator - l.record)

/-- Whether a wide end record can be relied on: it counts no more entries on this disk than there
are, and the directory is on this disk. -/
def WideEndRecord.isSound (r : WideEndRecord) : Bool :=
  r.count ≤ r.total && r.disk == r.directoryDisk

/-- Where the directory stands that a locator leads to. -/
def Locator.span? (l : Locator) (bytes : ByteArray) (locator : Nat) : Option Span := do
  guard (l.record < locator ∧ l.disks ≤ 1)
  let (record, place) ← l.record? bytes locator
  let shift := place - l.record
  let start := record.directoryStart + shift
  guard (record.isSound ∧ start ≤ maxQuad)
  return { start, count := record.total, shift }

/-- The locator of a wide end record, if the end record at a place is for one. -/
def EndRecord.locator? (r : EndRecord) (bytes : ByteArray) (place : Nat) : Option Locator :=
  if r.mayBeWide ∧ locatorSize ≤ place then Directory.locator? bytes (place - locatorSize) else none

/-- Where the directory stands that the end record at a place leads to. -/
def spanAt? (bytes : ByteArray) (place : Nat) : Option Span := do
  let record ← endRecord? bytes place
  match record.locator? bytes place with
  | some locator => locator.span? bytes (place - locatorSize)
  | none => record.span? bytes place

def entriesAt? (bytes : ByteArray) (place : Nat) : Option (List Entry) := do
  let span ← spanAt? bytes place
  entries? bytes span.shift span.count span.start

def search? (bytes : ByteArray) : Option (List Entry) :=
  lastBelow? (entriesAt? bytes) (bytes.size - 21)

end Directory

end ModuleSearch.Zip
