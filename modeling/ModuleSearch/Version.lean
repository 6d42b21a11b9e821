import ModuleSearch.Text.Cut

/-!
# Module versions

A version text is a sequence of tokens separated by dots, then optionally a pre-release part
after `-` and a build part after `+`, whose tokens may also be separated by hyphens. A token is a
run of digits or a run of other characters; a piece between separators is cut into such runs. A
text that does not start with a digit is no version.

Versions are ordered by their sequences; among equal sequences a pre-release comes before the
release, then the pre-release parts and the build parts decide. Versions that compare equal may
be written differently: `1.0` and `01.00`.
-/

namespace ModuleSearch

inductive VersionToken where
  /-- A run of digits without leading zeros. -/
  | number (digits : List Char)
  | text (chars : List Char)
  deriving DecidableEq, Repr

namespace VersionToken

def chars : VersionToken → List Char
  | number digits => digits
  | text chars => chars

/-- Zeros alone stand for zero. -/
def ofDigits (digits : List Char) : VersionToken :=
  match digits.dropWhile (· == '0') with
  | [] => number ['0']
  | c :: rest => number (c :: rest)

def ofRun (run : List Char) : VersionToken :=
  if run.all Char.isDigit then ofDigits run else text run

/-- Two numbers compare by value: of two digit runs without leading zeros the longer is greater.
All other pairs compare as texts. -/
def compare : VersionToken → VersionToken → Ordering
  | number a, number b => (Ord.compare a.length b.length).then (Ord.compare a b)
  | s, t => Ord.compare s.chars t.chars

instance : Ord VersionToken := ⟨compare⟩

/-- One thing that a hasher is given. -/
inductive HashInput where
  | length (n : Nat)
  | kind (index : Nat)
  | text (text : String)
  deriving DecidableEq, Hashable, Repr

def hashInputs : VersionToken → List HashInput
  | number digits => [.kind 0, .text (.ofList digits)]
  | text chars => [.kind 1, .text (.ofList chars)]

def hashInputsOf (tokens : List VersionToken) : List HashInput :=
  .length tokens.length :: tokens.flatMap hashInputs

end VersionToken

structure Version where
  /-- The version as it was written. -/
  text : String
  sequence : List VersionToken
  preRelease : List VersionToken
  build : List VersionToken
  deriving DecidableEq, Repr

inductive VersionError.Reason where
  | emptyText
  | noLeadingDigit
  | emptyToken
  | emptyPreRelease
  | emptyPreReleaseToken
  | emptyBuild
  | secondPlus
  | emptyBuildToken
  deriving DecidableEq, Repr

structure VersionError where
  version : String
  reason : VersionError.Reason
  deriving DecidableEq, Repr

namespace VersionError

def Reason.message : Reason → String
  | emptyText => "empty version string"
  | noLeadingDigit => "version does not start with a digit"
  | emptyToken => "empty version token"
  | emptyPreRelease => "empty pre-release"
  | emptyPreReleaseToken => "empty pre-release token"
  | emptyBuild => "empty build"
  | secondPlus => "unexpected '+' in build"
  | emptyBuildToken => "empty build token"

def message (e : VersionError) : String :=
  "invalid version '" ++ e.version ++ "': " ++ e.reason.message

end VersionError

namespace Version

/-- The maximal runs of digits and of other characters. -/
def pieceTokens (piece : List Char) : List VersionToken :=
  (piece.splitBy fun a b => a.isDigit == b.isDigit).map VersionToken.ofRun

/-- Refuses a part in which two separators meet, or that starts or ends with one. -/
def tokens? (separates : Char → Bool) (part : List Char) : Option (List VersionToken) :=
  let pieces := part.splitOnP separates
  if pieces.any List.isEmpty then none else some (pieces.flatMap pieceTokens)

def separatesSequence (c : Char) : Bool := c == '.'

def separatesPart (c : Char) : Bool := c == '.' || c == '-'

def tokensOr (reason : VersionError.Reason) (separates : Char → Bool) (part : List Char) :
    Except VersionError.Reason (List VersionToken) :=
  match tokens? separates part with
  | some tokens => .ok tokens
  | none => .error reason

def preReleaseTokens : Option (List Char) → Except VersionError.Reason (List VersionToken)
  | none => .ok []
  | some [] => .error .emptyPreRelease
  | some part => tokensOr .emptyPreReleaseToken separatesPart part

def buildTokens : Option (List Char) → Except VersionError.Reason (List VersionToken)
  | none => .ok []
  | some [] => .error .emptyBuild
  | some part =>
    if part.contains '+' then .error .secondPlus
    else tokensOr .emptyBuildToken separatesPart part

def startsWithDigit : List Char → Except VersionError.Reason Unit
  | [] => .error .emptyText
  | c :: _ => if c.isDigit then .ok () else .error .noLeadingDigit

def parseChars (text : String) (chars : List Char) : Except VersionError.Reason Version := do
  startsWithDigit chars
  let (release, build) := Text.cut '+' chars
  let (sequence, preRelease) := Text.cut '-' release
  let sequence ← tokensOr .emptyToken separatesSequence sequence
  let preRelease ← preReleaseTokens preRelease
  let build ← buildTokens build
  return { text, sequence, preRelease, build }

/-- Reads a version; the first fault from left to right is the error, an ill-formed sequence
before the pre-release and that before the build. -/
def parse (text : String) : Except VersionError Version :=
  (parseChars text text.toList).mapError fun reason => { version := text, reason }

def parse? (text : String) : Option Version := (parse text).toOption

def isPreRelease (v : Version) : Bool := !v.preRelease.isEmpty

/-- No pre-release comes after every pre-release. -/
def comparePreRelease (a b : List VersionToken) : Ordering :=
  match a.isEmpty, b.isEmpty with
  | true, false => .gt
  | false, true => .lt
  | _, _ => Ord.compare a b

def compare (a b : Version) : Ordering :=
  (Ord.compare a.sequence b.sequence).then
    ((comparePreRelease a.preRelease b.preRelease).then (Ord.compare a.build b.build))

instance : Ord Version := ⟨compare⟩

instance : BEq Version := ⟨fun a b => Ord.compare a b == .eq⟩

/-- What equality and hashing look at: the tokens and not the text. -/
def key (v : Version) : List VersionToken × List VersionToken × List VersionToken :=
  (v.sequence, v.preRelease, v.build)

/-- What a hasher is given of a version, one after the other. -/
def hashInputs (v : Version) : List VersionToken.HashInput :=
  VersionToken.hashInputsOf v.sequence ++ VersionToken.hashInputsOf v.preRelease ++
    VersionToken.hashInputsOf v.build

instance : Hashable Version := ⟨fun v => hash v.hashInputs⟩

instance : ToString Version := ⟨Version.text⟩

/-- Sorts ascending; versions that compare equal keep their order. -/
def sort (versions : List Version) : List Version :=
  versions.mergeSort fun a b => Ord.compare a b != .gt

end Version

end ModuleSearch
