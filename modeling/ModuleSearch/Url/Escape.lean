import ModuleSearch.Text.Hex

/-!
# Escapes in URLs

A character that may not stand in a part of a URL is written as its bytes in UTF-8, each byte as a
percent sign and two digits. All parts escape controls and bytes beyond ASCII; the signs that a
part escapes moreover are those that would end it or mean something in it.
-/

namespace ModuleSearch.Url

inductive Part where
  | host
  | userInfo
  | path
  /-- A name in the path of a file. -/
  | fileName
  | query
  | fragment
  deriving DecidableEq, Repr

namespace Part

def isControl (byte : UInt8) : Bool := byte < 0x20 || 0x7F ≤ byte

def fragmentSigns : List Char := [' ', '"', '<', '>', '`']

def pathSigns : List Char := fragmentSigns ++ ['#', '?', '{', '}']

/-- The signs that a part escapes. -/
def signs : Part → List Char
  | host => []
  | userInfo => pathSigns ++ ['/', ':', ';', '=', '@', '[', '\\', ']', '^', '|']
  | path => pathSigns
  | fileName => pathSigns ++ ['/', '%', '\\']
  | query => [' ', '"', '<', '>', '#']
  | fragment => fragmentSigns

def escapes (p : Part) (byte : UInt8) : Bool :=
  isControl byte || p.signs.any fun c => c.toNat == byte.toNat

end Part

def percent (byte : UInt8) : List Char :=
  ['%', Text.Hex.upperDigit (byte.toNat / 16), Text.Hex.upperDigit (byte.toNat % 16)]

def escapeByte (p : Part) (byte : UInt8) : List Char :=
  if p.escapes byte then percent byte else [Char.ofNat byte.toNat]

/-- A text as it is written in a part of a URL. -/
def escape (p : Part) (text : List Char) : List Char :=
  (String.ofList text).toUTF8.toList.flatMap (escapeByte p)

end ModuleSearch.Url
