import ModuleSearch.Zip.Crc32
import ModuleSearch.Zip.Field

/-!
# Extra fields

A directory entry may carry further fields, each with a kind and a length. Some of them replace
what the entry says: its name, its comment, numbers that do not fit, the method of sealed data. A
field of a known kind must be well-formed; others are passed over. `Record.withFields?` applies
fields to an entry in their order.
-/

namespace ModuleSearch.Zip

/-- What a directory entry says. -/
structure Record where
  name : String
  /-- The name as it is written. -/
  nameBytes : ByteArray
  comment : String
  isEncrypted : Bool
  /-- Whether the data are sealed with a key, as one of the fields says. -/
  isSealed : Bool
  method : Nat
  checksum : UInt32
  /-- The number of bytes that the data take. -/
  size : Nat
  plainSize : Nat
  /-- Where the entry's own header stands. -/
  header : Nat

inductive FieldKind where
  | wideNumbers
  | fileTimes
  | stamps
  | comment
  | name
  | sealing
  | other
  deriving DecidableEq, Repr

def FieldKind.ofNumber : Nat → FieldKind
  | 0x0001 => wideNumbers
  | 0x000A => fileTimes
  | 0x5455 => stamps
  | 0x6375 => comment
  | 0x7075 => name
  | 0x9901 => sealing
  | _ => other

namespace Record

/-- A number of the entry, or the next one of the field if it does not fit there. A field that is
long enough for all three numbers holds all of them. -/
def wide (length given : Nat) : Reader Nat :=
  if 24 ≤ length ∨ given = maxDouble then Reader.number 8 else return given

/-- The number of bytes that `wide` takes. -/
def wideLength (length given : Nat) : Nat := if 24 ≤ length ∨ given = maxDouble then 8 else 0

def withWideNumbers (r : Record) (length : Nat) : Reader Record := do
  let plainSize ← wide length r.plainSize
  let size ← wide length r.size
  let header ← wide length r.header
  let taken := wideLength length r.plainSize + wideLength length r.size + wideLength length r.header
  guard (taken ≤ length)
  let _ ← Reader.take (length - taken)
  return { r with plainSize, size, header }

/-- A field of three times, each of eight bytes. -/
def fileTimes (length : Nat) : Reader Unit := do
  guard (length = 32)
  let _ ← Reader.take 4
  guard ((← Reader.number 2) = 1)
  guard ((← Reader.number 2) = 24)
  let _ ← Reader.take 24

def countBits (flags : Nat) : Nat := ((List.range 8).filter flags.testBit).length

/-- A field of times, each of four bytes, one for each bit that is set in the flags before them. A
field of one time need not agree with its flags. -/
def stamps (length : Nat) : Reader Unit := do
  let flags ← Reader.number 1
  guard (length = 5 ∨ length = 1 + 4 * countBits flags)
  let _ ← Reader.take (length - 1)

/-- The letters A and E. -/
def sealVendor : Nat := 0x4541

/-- How the data are sealed, and how they were compressed before. -/
def withSeal (r : Record) (length : Nat) : Reader Record := do
  guard (length = 7)
  let version ← Reader.number 2
  let vendor ← Reader.number 2
  let strength ← Reader.number 1
  let method ← Reader.number 2
  guard ((version = 1 ∨ version = 2) ∧ vendor = sealVendor ∧ 1 ≤ strength ∧ strength ≤ 3)
  return { r with method, isSealed := true }

/-- A text in UTF-8 that stands for another one, which is known by its checksum. -/
def replacement (length : Nat) (replaced : ByteArray) : Reader (ByteArray × String) := do
  let _ ← Reader.take 1
  let checksum ← Reader.number 4
  guard (5 ≤ length ∧ (Crc32.checksum replaced).toNat = checksum)
  let bytes := ByteArray.mk (← Reader.take (length - 5)).toArray
  return (bytes, ← String.fromUTF8? bytes)

def withName (r : Record) (length : Nat) : Reader Record := do
  let (nameBytes, name) ← replacement length r.nameBytes
  return { r with name, nameBytes }

def withComment (r : Record) (length : Nat) : Reader Record := do
  let (_, comment) ← replacement length r.comment.toUTF8
  return { r with comment }

def withField (r : Record) : Reader Record := do
  let kind ← Reader.number 2
  let length ← Reader.number 2
  match FieldKind.ofNumber kind with
  | .wideNumbers => r.withWideNumbers length
  | .fileTimes => do
    fileTimes length
    return r
  | .stamps => do
    stamps length
    return r
  | .comment => r.withComment length
  | .name => r.withName length
  | .sealing => r.withSeal length
  | .other => do
    let _ ← Reader.take length
    return r

/-- Applies at most so many fields. A single byte is no field and ends them. -/
def withFieldsFrom? : Nat → Record → List UInt8 → Option Record
  | 0, r, _ => some r
  | n + 1, r, fields =>
    if fields.length ≤ 1 then some r
    else (r.withField fields).bind fun (r, rest) => withFieldsFrom? n r rest

/-- Applies all fields; each takes at least one byte. -/
def withFields? (r : Record) (fields : List UInt8) : Option Record :=
  withFieldsFrom? fields.length r fields

end Record

end ModuleSearch.Zip
