import ModuleSearch.Text.Cut
import ModuleSearch.Text.Hex

/-!
# Addresses

An address of eight pieces of 16 bits. It is written as hexadecimal numbers between colons; one
gap of two colons may stand for pieces that are zero, and four decimal bytes for the last two
pieces. `Address.parse?` reads all these forms, `Address.text` writes the shortest one: the first
longest run of two or more zeros becomes the gap.
-/

namespace ModuleSearch.Url

/-- The number of pieces. -/
def Address.size : Nat := 8

structure Address where
  pieces : List Nat
  length_pieces : pieces.length = Address.size
  deriving DecidableEq, Repr

namespace Address

/-- One to four hexadecimal digits. -/
def piece? (digits : List Char) : Option Nat := do
  guard (1 ≤ digits.length ∧ digits.length ≤ 4)
  digits.foldlM (fun value c => (Text.Hex.value? c).map (16 * value + ·)) 0

/-- A number below 256 in decimal digits without leading zeros. -/
def decimalByte? (digits : List Char) : Option Nat := do
  guard (1 ≤ digits.length ∧ digits.length ≤ 3 ∧ digits.all Char.isDigit)
  guard (digits.length = 1 ∨ digits.head? ≠ some '0')
  let value := digits.foldl (fun value c => 10 * value + (c.toNat - 48)) 0
  guard (value < 256)
  return value

/-- Two pieces as four bytes between points. -/
def dotted? (text : List Char) : Option (List Nat) :=
  match text.splitOn '.' with
  | [a, b, c, d] => do
    let a ← decimalByte? a
    let b ← decimalByte? b
    let c ← decimalByte? c
    let d ← decimalByte? d
    return [256 * a + b, 256 * c + d]
  | _ => none

/-- The pieces of the groups between colons; the last group may be dotted. -/
def groups? : List (List Char) → Option (List Nat)
  | [] => some []
  | [last] => if last.contains '.' then dotted? last else (piece? last).map ([·])
  | group :: rest => do
    let piece ← piece? group
    let pieces ← groups? rest
    return piece :: pieces

/-- The pieces at one side of a gap, where there may be none. -/
def side? (text : List Char) : Option (List Nat) :=
  if text.isEmpty then some [] else groups? (text.splitOn ':')

/-- What stands before and after the first gap. -/
def cutGap? : List Char → Option (List Char × List Char)
  | ':' :: ':' :: rest => some ([], rest)
  | c :: rest => (cutGap? rest).map fun (before, after) => (c :: before, after)
  | [] => none

def ofPieces? (pieces : List Nat) : Option Address :=
  if h : pieces.length = size then some ⟨pieces, h⟩ else none

/-- The pieces before and after a gap, which stands for at least one piece. -/
def ofSides? (first last : List Nat) : Option Address :=
  if first.length + last.length < size then
    ofPieces? (first ++ List.replicate (size - first.length - last.length) 0 ++ last)
  else none

/-- Bytes between points can only be last. -/
def parse? (text : List Char) : Option Address :=
  match cutGap? text with
  | some (before, after) => do
    guard ('.' ∉ before)
    let first ← side? before
    let last ← side? after
    ofSides? first last
  | none => (groups? (text.splitOn ':')).bind ofPieces?

/-- The number of zeros that a list starts with. -/
def leadingZeros (pieces : List Nat) : Nat := (pieces.takeWhile (· == 0)).length

/-- Where the first longest run of zeros starts, and its length. -/
def longestRun : List Nat → Nat × Nat
  | [] => (0, 0)
  | piece :: rest =>
    let (start, length) := longestRun rest
    let here := leadingZeros (piece :: rest)
    if length ≤ here then (0, here) else (start + 1, length)

def pieceText (piece : Nat) : List Char := Nat.toDigits 16 piece

def groupsText (pieces : List Nat) : List Char := List.intercalate [':'] (pieces.map pieceText)

def text (a : Address) : List Char :=
  let (start, length) := longestRun a.pieces
  if length < 2 then groupsText a.pieces
  else groupsText (a.pieces.take start) ++ [':', ':'] ++ groupsText (a.pieces.drop (start + length))

end Address

end ModuleSearch.Url
