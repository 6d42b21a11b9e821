/-!
# CRC-32

The checksum of zip entries: the remainder of the bits of the data modulo the polynomial, with the
bits of each byte taken from the lowest on.
-/

namespace ModuleSearch.Zip.Crc32

/-- The generator polynomial without its leading term, highest power in the lowest bit. -/
def polynomial : UInt32 := 0xEDB88320

def shift (crc : UInt32) : UInt32 :=
  if crc &&& 1 = 1 then (crc >>> 1) ^^^ polynomial else crc >>> 1

def addByte (crc : UInt32) (byte : UInt8) : UInt32 := Nat.repeat shift 8 (crc ^^^ byte.toUInt32)

def checksum (bytes : ByteArray) : UInt32 := bytes.data.foldl addByte 0xFFFFFFFF ^^^ 0xFFFFFFFF

end ModuleSearch.Zip.Crc32
