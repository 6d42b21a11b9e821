/-!
# UTF-8 with replacement

`decodeLossy` reads bytes as UTF-8 and never fails: each maximal part that starts a character
without completing it, and each byte that can start none, is read as U+FFFD.
-/

namespace ModuleSearch.Text.Utf8

def replacement : Char := Char.ofNat 0xFFFD

/-- A character of which some bytes are missing. The next byte must lie from `low` to `high`. -/
structure Pending where
  value : Nat
  missing : Nat
  low : Nat
  high : Nat
  deriving DecidableEq, Repr

/-- What the first byte of a character gives: a character, or one that has to be continued. -/
def start (byte : Nat) : Char ⊕ Pending :=
  if byte < 0x80 then .inl (Char.ofNat byte)
  else if byte < 0xC2 then .inl replacement
  else if byte < 0xE0 then .inr ⟨byte - 0xC0, 1, 0x80, 0xBF⟩
  else if byte = 0xE0 then .inr ⟨0, 2, 0xA0, 0xBF⟩
  else if byte = 0xED then .inr ⟨0xD, 2, 0x80, 0x9F⟩
  else if byte < 0xF0 then .inr ⟨byte - 0xE0, 2, 0x80, 0xBF⟩
  else if byte = 0xF0 then .inr ⟨0, 3, 0x90, 0xBF⟩
  else if byte < 0xF4 then .inr ⟨byte - 0xF0, 3, 0x80, 0xBF⟩
  else if byte = 0xF4 then .inr ⟨4, 3, 0x80, 0x8F⟩
  else .inl replacement

/-- What the next byte of a character gives. -/
def Pending.next (p : Pending) (byte : Nat) : Char ⊕ Pending :=
  let value := p.value * 64 + byte % 64
  if p.missing ≤ 1 then .inl (Char.ofNat value) else .inr ⟨value, p.missing - 1, 0x80, 0xBF⟩

def Pending.accepts (p : Pending) (byte : Nat) : Bool := p.low ≤ byte && byte ≤ p.high

/-- The characters that a byte completes, and the one that it leaves pending. -/
def feed (pending : Option Pending) (byte : Nat) : List Char × Option Pending :=
  match pending with
  | some p =>
    if p.accepts byte then
      match p.next byte with
      | .inl c => ([c], none)
      | .inr p => ([], some p)
    else
      match start byte with
      | .inl c => ([replacement, c], none)
      | .inr p => ([replacement], some p)
  | none =>
    match start byte with
    | .inl c => ([c], none)
    | .inr p => ([], some p)

def decodeFrom (pending : Option Pending) : List UInt8 → List Char
  | [] => if pending.isSome then [replacement] else []
  | byte :: rest =>
    let (chars, pending) := feed pending byte.toNat
    chars ++ decodeFrom pending rest

def decodeLossy (bytes : List UInt8) : String := String.ofList (decodeFrom none bytes)

end ModuleSearch.Text.Utf8
