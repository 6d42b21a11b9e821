import ModuleSearch.Text.Cp437
import ModuleSearch.Text.Utf8
import ModuleSearch.Zip.Extra

/-!
# Entries of zip files

`entry?` reads an entry of the directory. The data stand behind a header of their own, which
`dataStart?` reads; opening a zip file does not look at it.
-/

namespace ModuleSearch.Zip

structure Entry where
  name : String
  isEncrypted : Bool
  isSealed : Bool
  method : Nat
  checksum : UInt32
  /-- Where the entry's own header stands, and the number of bytes of its data. -/
  header : Nat
  size : Nat
  deriving DecidableEq, Repr

def entryMagic : Nat := 0x02014B50

def dataMagic : Nat := 0x04034B50

/-- The number of bytes of a directory entry without its name, fields and comment. -/
def entrySize : Nat := 46

/-- Texts are in UTF-8 if bit 11 of the flags says so. -/
def decodeText (flags : Nat) (text : List UInt8) : String :=
  if flags.testBit 11 then Text.Utf8.decodeLossy text else Text.Cp437.decode text

/-- The directory entry at a place without its extra fields, these fields, and where the next
entry starts. -/
def record? (bytes : ByteArray) (start : Nat) : Option (Record × List UInt8 × Nat) := do
  guard ((← double? bytes start) = entryMagic)
  let flags ← word? bytes (start + 8)
  let method ← word? bytes (start + 10)
  let checksum ← double? bytes (start + 16)
  let size ← double? bytes (start + 20)
  let plainSize ← double? bytes (start + 24)
  let nameSize ← word? bytes (start + 28)
  let fieldsSize ← word? bytes (start + 30)
  let commentSize ← word? bytes (start + 32)
  let header ← double? bytes (start + 42)
  let fields := start + entrySize + nameSize
  let comment := fields + fieldsSize
  let next := comment + commentSize
  guard (next ≤ bytes.size)
  let nameBytes := bytes.extract (start + entrySize) fields
  return ({
    name := decodeText flags nameBytes.toList
    nameBytes
    comment := decodeText flags (bytes.extract comment next).toList
    isEncrypted := flags.testBit 0
    isSealed := false
    method
    checksum := checksum.toUInt32
    size
    plainSize
    header }, (bytes.extract fields comment).toList, next)

/-- Method of sealed entries: a field must say how their data were compressed. -/
def sealedMethod : Nat := 99

/-- The directory entry at a place and where the next one starts; `shift` bytes stand before the
zip file. -/
def entry? (bytes : ByteArray) (shift start : Nat) : Option (Entry × Nat) := do
  let (record, fields, next) ← record? bytes start
  let record ← record.withFields? fields
  guard (record.method ≠ sealedMethod ∨ record.isSealed)
  let header := record.header + shift
  guard (header ≤ maxQuad)
  return ({ record with header }, next)

def entries? (bytes : ByteArray) (shift : Nat) : Nat → Nat → Option (List Entry)
  | 0, _ => some []
  | n + 1, start => do
    let (entry, next) ← entry? bytes shift start
    let rest ← entries? bytes shift n next
    return entry :: rest

/-- Where the data of an entry start, given where its own header starts. -/
def dataStart? (bytes : ByteArray) (header : Nat) : Option Nat := do
  guard ((← double? bytes header) = dataMagic)
  let name ← word? bytes (header + 26)
  let fields ← word? bytes (header + 28)
  return header + 30 + name + fields

end ModuleSearch.Zip
