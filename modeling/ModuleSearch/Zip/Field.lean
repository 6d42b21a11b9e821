/-!
# Numbers in zip files

Numbers are written lowest byte first. `number?` reads one at a place of a file; `Reader` takes
numbers and bytes one after another off the front of a list of bytes.
-/

namespace ModuleSearch.Zip

/-- The number that so many bytes stand for. -/
def number? (bytes : ByteArray) (start : Nat) : Nat → Option Nat
  | 0 => some 0
  | n + 1 => do
    let low ← bytes[start]?
    let high ← number? bytes (start + 1) n
    return low.toNat + 256 * high

def word? (bytes : ByteArray) (start : Nat) : Option Nat := number? bytes start 2

def double? (bytes : ByteArray) (start : Nat) : Option Nat := number? bytes start 4

def quad? (bytes : ByteArray) (start : Nat) : Option Nat := number? bytes start 8

/-- The greatest numbers of two, four and eight bytes. The first two stand for a number that is
too large for its place and is written elsewhere. -/
def maxWord : Nat := 0xFFFF

def maxDouble : Nat := 0xFFFFFFFF

def maxQuad : Nat := 0xFFFFFFFFFFFFFFFF

abbrev Reader := StateT (List UInt8) Option

namespace Reader

/-- The next bytes; all of them must be there. -/
def take (n : Nat) : Reader (List UInt8) := fun bytes =>
  if n ≤ bytes.length then some (bytes.take n, bytes.drop n) else none

def ofBytes : List UInt8 → Nat
  | [] => 0
  | low :: rest => low.toNat + 256 * ofBytes rest

def number (n : Nat) : Reader Nat := do return ofBytes (← take n)

end Reader

end ModuleSearch.Zip
