import ModuleSearch.Url.Address
import ModuleSearch.Url.Escape

/-!
# Authorities

The authority of a URL names a host, with user information before it and a number behind it. It
ends at a slash, a question mark or a number sign; `Authority.read?` takes it off the front of a text.
-/

namespace ModuleSearch.Url

inductive Host where
  /-- A name as it is written, escapes included. -/
  | name (text : List Char)
  | address (address : Address)
  deriving DecidableEq, Repr

namespace Host

/-- Characters that no name of a host holds. -/
def forbidden : List Char :=
  ['\x00', '\t', '\n', '\r', ' ', '#', '/', ':', '<', '>', '?', '@', '[', '\\', ']', '^', '|']

/-- An address stands between brackets. -/
def parse? : List Char → Option Host
  | '[' :: text => do
    guard (text.getLast? = some ']')
    return address (← Address.parse? text.dropLast)
  | text => if text.any forbidden.contains then none else some (name (escape .host text))

def text : Host → List Char
  | name text => text
  | address a => '[' :: a.text ++ [']']

end Host

structure Authority where
  /-- The user information as it is written. It may be empty. -/
  userInfo : List Char
  host : Host
  /-- The number behind the host. -/
  number : Option Nat
  deriving DecidableEq, Repr

namespace Authority

def isEnd (c : Char) : Bool := c == '/' || c == '?' || c == '#'

/-- A name, and a password behind a colon if there is one that is not empty. -/
def escapeUserInfo (info : List Char) : List Char :=
  match Text.cut ':' info with
  | (name, none) | (name, some []) => escape .userInfo name
  | (name, some password) => escape .userInfo name ++ ':' :: escape .userInfo password

/-- What stands before the last at-sign of a front, and what stands after it. An at-sign alone may
not be followed by more of the URL. -/
def userInfo? (front rest : List Char) : Option (List Char × List Char) :=
  match Text.cutLast? '@' front with
  | none => some ([], front)
  | some ([], []) => if rest.isEmpty then some ([], []) else none
  | some (info, after) => some (escapeUserInfo info, after)

/-- Cuts at the first colon that is not inside brackets and keeps it. -/
def cutHost (isInside : Bool) : List Char → List Char × List Char
  | [] => ([], [])
  | c :: rest =>
    if c = ':' ∧ !isInside then ([], c :: rest)
    else
      let (host, after) := cutHost (c == '[' || isInside && c != ']') rest
      (c :: host, after)

def maxNumber : Nat := 65535

def decimal (digits : List Char) : Nat :=
  digits.foldl (fun value c => 10 * value + (c.toNat - 48)) 0

/-- The number behind a colon, if it has digits. It ends at a backslash too. -/
def number? : List Char → Option (Option Nat × List Char)
  | ':' :: text => do
    let digits := text.takeWhile Char.isDigit
    let rest := text.dropWhile Char.isDigit
    guard (rest.head? = none ∨ rest.head? = some '\\')
    guard (decimal digits ≤ maxNumber)
    return (if digits.isEmpty then none else some (decimal digits), rest)
  | rest => some (none, rest)

/-- An authority and what follows it. The host may be empty if it stands alone. -/
def read? (text : List Char) : Option (Authority × List Char) := do
  let rest := text.dropWhile fun c => !isEnd c
  let (userInfo, front) ← userInfo? (text.takeWhile fun c => !isEnd c) rest
  let (host, after) := cutHost false front
  guard (!host.isEmpty ∨ after.isEmpty ∧ userInfo.isEmpty)
  let host ← Host.parse? host
  let (number, after) ← number? after
  return ({ userInfo, host, number }, after ++ rest)

def numberText : Option Nat → List Char
  | some number => ':' :: Nat.toDigits 10 number
  | none => []

def text (a : Authority) : List Char :=
  (if a.userInfo.isEmpty then [] else a.userInfo ++ ['@']) ++ a.host.text ++ numberText a.number

end Authority

end ModuleSearch.Url
