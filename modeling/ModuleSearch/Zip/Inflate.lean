/-!
# The deflate format

A deflate stream is a sequence of blocks; a block holds bytes as they are, or symbols of two prefix
codes: one for bytes and lengths, one for distances. `inflate?` gives the bytes that a stream stands
for, and nothing if it is not well-formed or ends before its last block does. What follows the last
block does not count.
-/

namespace ModuleSearch.Zip.Inflate

/-- Bytes read bit by bit, each from its lowest bit on. -/
structure Bits where
  bytes : ByteArray
  /-- The bits that have been read. -/
  position : Nat

namespace Bits

def left (s : Bits) : Nat := 8 * s.bytes.size - s.position

end Bits

abbrev BitReader := StateT Bits Option

def bit : BitReader Nat := fun s =>
  (s.bytes[s.position / 8]?).map fun byte =>
    ((byte.toNat >>> (s.position % 8)) % 2, { s with position := s.position + 1 })

/-- A number of so many bits, the lowest first. -/
def number : Nat → BitReader Nat
  | 0 => return 0
  | n + 1 => do
    let low ← bit
    let high ← number n
    return low + 2 * high

/-- A canonical prefix code: how many code words of 1, 2, … bits there are, and the symbols in the
order of their code words. -/
structure Code where
  counts : List Nat
  symbols : Array Nat

namespace Code

def maxLength : Nat := 15

def symbolsOfLength (lengths : List Nat) (length : Nat) : List Nat :=
  (lengths.zipIdx.filter fun e => e.1 == length).map Prod.snd

/-- The code with the given length of code word for each symbol; zero if it has none. -/
def ofLengths (lengths : List Nat) : Code where
  counts := (List.range maxLength).map fun i => lengths.count (i + 1)
  symbols := ((List.range maxLength).flatMap fun i => symbolsOfLength lengths (i + 1)).toArray

def weight : List Nat → Nat
  | [] => 0
  | count :: rest => (count <<< rest.length) + weight rest

/-- Whether the code words fill all places. -/
def isComplete (c : Code) : Bool := weight c.counts == 1 <<< maxLength

/-- Whether there is at most one code word, and that of one bit. -/
def isSingle (c : Code) : Bool := c.symbols.size ≤ 1 && c.counts.tail.all (· == 0)

/-- Reads a code word bit by bit. At each length, `first` is the first code word of that length and
`index` the place of its symbol; `value` is what has been read. -/
def symbolFrom (symbols : Array Nat) : List Nat → Nat → Nat → Nat → BitReader Nat
  | [], _, _, _ => failure
  | count :: counts, value, first, index => do
    let value := 2 * value + (← bit)
    let first := 2 * first
    if value < first + count then
      match symbols[index + (value - first)]? with
      | some symbol => return symbol
      | none => failure
    else symbolFrom symbols counts value (first + count) (index + count)

def symbol (c : Code) : BitReader Nat := symbolFrom c.symbols c.counts 0 0 0

end Code

structure Codes where
  literals : Code
  distances : Code

def fixedCodes : Codes where
  literals := .ofLengths (List.replicate 144 8 ++ List.replicate 112 9 ++ List.replicate 24 7 ++
    List.replicate 8 8)
  distances := .ofLengths (List.replicate 32 5)

/-- Least value and number of further bits of the length symbols from 257 on. -/
def lengthBases : Array (Nat × Nat) :=
  #[(3, 0), (4, 0), (5, 0), (6, 0), (7, 0), (8, 0), (9, 0), (10, 0), (11, 1), (13, 1), (15, 1),
    (17, 1), (19, 2), (23, 2), (27, 2), (31, 2), (35, 3), (43, 3), (51, 3), (59, 3), (67, 4),
    (83, 4), (99, 4), (115, 4), (131, 5), (163, 5), (195, 5), (227, 5), (258, 0)]

/-- Least value and number of further bits of the distance symbols. -/
def distanceBases : Array (Nat × Nat) :=
  #[(1, 0), (2, 0), (3, 0), (4, 0), (5, 1), (7, 1), (9, 2), (13, 2), (17, 3), (25, 3), (33, 4),
    (49, 4), (65, 5), (97, 5), (129, 6), (193, 6), (257, 7), (385, 7), (513, 8), (769, 8),
    (1025, 9), (1537, 9), (2049, 10), (3073, 10), (4097, 11), (6145, 11), (8193, 12), (12289, 12),
    (16385, 13), (24577, 13)]

def basedNumber (bases : Array (Nat × Nat)) (symbol : Nat) : BitReader Nat :=
  match bases[symbol]? with
  | some (base, further) => do return base + (← number further)
  | none => failure

/-- Where the lengths of the length code stand. -/
def lengthOrder : List Nat := [16, 17, 18, 0, 8, 7, 9, 6, 10, 5, 11, 4, 12, 3, 13, 2, 14, 1, 15]

def numbers (bits : Nat) : Nat → BitReader (List Nat)
  | 0 => return []
  | n + 1 => do
    let first ← number bits
    let rest ← numbers bits n
    return first :: rest

/-- The code of a block; its code words fill all places, or there is at most a short one. -/
def blockCode (lengths : List Nat) : BitReader Code := do
  let code := Code.ofLengths lengths
  guard (code.isComplete ∨ code.isSingle)
  return code

/-- The code in which the lengths of the two codes of a block are written. -/
def lengthCode (count : Nat) : BitReader Code := do
  let given ← numbers 3 count
  let table := lengthOrder.zip given
  let code := Code.ofLengths ((List.range 19).map fun i => (table.lookup i).getD 0)
  guard code.isComplete
  return code

/-- What a symbol of the length code appends to the lengths before it. -/
def repeated (before : List Nat) (symbol : Nat) : BitReader (List Nat) := do
  if symbol < 16 then return [symbol]
  else if symbol = 16 then
    match before.getLast? with
    | some last => return List.replicate (3 + (← number 2)) last
    | none => failure
  else if symbol = 17 then return List.replicate (3 + (← number 3)) 0
  else return List.replicate (11 + (← number 7)) 0

/-- Reads lengths until there are `count` of them. Each step appends at least one. -/
def lengths (code : Code) (count : Nat) : Nat → List Nat → BitReader (List Nat)
  | 0, _ => failure
  | bound + 1, before =>
    if before.length = count then return before
    else if before.length > count then failure
    else do
      let symbol ← code.symbol
      let more ← repeated before symbol
      lengths code count bound (before ++ more)

/-- The symbol that ends a block. -/
def endSymbol : Nat := 256

/-- The two codes of a block; a block must be able to end. -/
def codes : BitReader Codes := do
  let literalCount := 257 + (← number 5)
  let distanceCount := 1 + (← number 5)
  let lengthCount := 4 + (← number 4)
  guard (literalCount ≤ 286 ∧ distanceCount ≤ 30)
  let code ← lengthCode lengthCount
  let count := literalCount + distanceCount
  let all ← lengths code count (count + 1) []
  guard (all[endSymbol]? ≠ some 0)
  let literals ← blockCode (all.take literalCount)
  let distances ← blockCode (all.drop literalCount)
  return { literals, distances }

/-- Appends `count` bytes, each a copy of the one that stands `distance` before it. -/
def copy (distance : Nat) : Nat → ByteArray → ByteArray
  | 0, out => out
  | count + 1, out => copy distance count (out.push (out[out.size - distance]?.getD 0))

/-- What an element of a block does. -/
inductive Element where
  | byte (value : UInt8)
  | copy (distance length : Nat)
  | blockEnd

def element (c : Codes) : BitReader Element := do
  let symbol ← c.literals.symbol
  if symbol < endSymbol then return .byte symbol.toUInt8
  else if symbol = endSymbol then return .blockEnd
  else
    let length ← basedNumber lengthBases (symbol - endSymbol - 1)
    let distance ← basedNumber distanceBases (← c.distances.symbol)
    return .copy distance length

/-- Reads elements up to the end of a block. Each takes at least one bit. -/
def elements (c : Codes) : Nat → ByteArray → BitReader ByteArray
  | 0, _ => failure
  | bound + 1, out => do
    match ← element c with
    | .blockEnd => return out
    | .byte value => elements c bound (out.push value)
    | .copy distance length =>
      guard (distance ≤ out.size)
      elements c bound (copy distance length out)

/-- The next byte boundary. -/
def align : BitReader Unit := modify fun s => { s with position := (s.position + 7) / 8 * 8 }

/-- So many bytes from a byte boundary on. -/
def takeBytes (count : Nat) : BitReader ByteArray := fun s =>
  let start := s.position / 8
  if start + count ≤ s.bytes.size then
    some (s.bytes.extract start (start + count), { s with position := s.position + 8 * count })
  else none

/-- A block of bytes: their number and its complement stand before them. -/
def plainBlock (out : ByteArray) : BitReader ByteArray := do
  align
  let count ← number 16
  let complement ← number 16
  guard (count + complement = 0xFFFF)
  return out ++ (← takeBytes count)

def codedBlock (c : Codes) (out : ByteArray) : BitReader ByteArray := do
  elements c ((← get).left + 1) out

/-- Appends the bytes of a block. -/
def block (kind : Nat) (out : ByteArray) : BitReader ByteArray :=
  match kind with
  | 0 => plainBlock out
  | 1 => codedBlock fixedCodes out
  | 2 => do codedBlock (← codes) out
  | _ => failure

/-- Reads blocks up to the last one. Each takes at least one bit. -/
def blocks : Nat → ByteArray → BitReader ByteArray
  | 0, _ => failure
  | bound + 1, out => do
    let last ← bit
    let out ← block (← number 2) out
    if last = 1 then return out else blocks bound out

def inflate? (bytes : ByteArray) : Option ByteArray :=
  (blocks (8 * bytes.size + 1) .empty).run' ⟨bytes, 0⟩

end ModuleSearch.Zip.Inflate
