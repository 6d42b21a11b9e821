import ModuleSearch.Url.Authority

/-!
# URLs

`Url.ofRooted?` reads the URL that a scheme without rules of its own, a colon, a slash and a text
make up. A second slash starts an authority. The segments of the path are brought into normal
form: a single dot names the directory itself, two dots the directory above. `Url.text` writes a
URL.
-/

namespace ModuleSearch

structure Url where
  scheme : String
  authority : Option Url.Authority
  /-- The path, each segment as it is written after a slash. Only behind an authority may there be
  none. -/
  segments : List (List Char)
  query : Option (List Char)
  fragment : Option (List Char)
  deriving DecidableEq, Repr

namespace Url

/-- The number of dots that a segment consists of, if it consists of dots; they may be escaped. -/
def dots? : List Char → Option Nat
  | [] => some 0
  | '.' :: rest => (dots? rest).map (· + 1)
  | '%' :: '2' :: 'e' :: rest => (dots? rest).map (· + 1)
  | '%' :: '2' :: 'E' :: rest => (dots? rest).map (· + 1)
  | _ => none

/-- Whether a segment names a drive: a letter and a colon or a bar, and then no more or a
backslash. -/
def isDrive : List Char → Bool
  | letter :: sign :: rest =>
    letter.isAlpha && (sign == ':' || sign == '|') && (rest.isEmpty || rest.head? == some '\\')
  | _ => false

/-- The directory above one that is given by its segments, the last one first. Nothing is above
the root or a drive. -/
def above : List (List Char) → List (List Char)
  | [] => []
  | segment :: rest => if isDrive segment then segment :: rest else rest

/-- The directory that a segment leads to. -/
def enter (directory : List (List Char)) (segment : List Char) : List (List Char) :=
  match dots? segment with
  | some 1 => directory
  | some 2 => above directory
  | _ => segment :: directory

/-- The segments of a path, the last one first: after a directory it is empty. -/
def normalFrom (directory : List (List Char)) : List (List Char) → List (List Char)
  | [] => directory
  | [last] =>
    match dots? last with
    | some 1 => [] :: directory
    | some 2 => [] :: above directory
    | _ => last :: directory
  | segment :: rest => normalFrom (enter directory segment) rest

def normal (segments : List (List Char)) : List (List Char) := (normalFrom [] segments).reverse

/-- The segments of a path; a slash in front of it may be left out. -/
def segmentsOf : List Char → List (List Char)
  | [] => []
  | '/' :: path => normal ((path.splitOn '/').map (escape .path))
  | path => normal ((path.splitOn '/').map (escape .path))

def isTrimmed (c : Char) : Bool := c.toNat ≤ 0x20

def isIgnored (c : Char) : Bool := c == '\t' || c == '\n' || c == '\r'

/-- Controls and blanks at the end do not count, tabs and line breaks nowhere. -/
def trim (text : List Char) : List Char :=
  (text.reverse.dropWhile isTrimmed).reverse.filter fun c => !isIgnored c

/-- The URL of a path, a query behind a question mark and a fragment behind a number sign. -/
def ofPath (scheme : String) (authority : Option Authority) (text : List Char) : Url :=
  let (text, fragment) := Text.cut '#' text
  let (path, query) := Text.cut '?' text
  {
    scheme
    authority
    segments := segmentsOf path
    query := query.map (escape .query)
    fragment := fragment.map (escape .fragment) }

def ofRooted? (scheme : String) (text : String) : Option Url :=
  match trim text.toList with
  | '/' :: rest => (Authority.read? rest).map fun (authority, rest) =>
      ofPath scheme (some authority) rest
  | rest => some (ofPath scheme none ('/' :: rest))

/-- What stands before the path. Two slashes there would start an authority. -/
def front : Option Authority → List (List Char) → List Char
  | some authority, _ => ['/', '/'] ++ authority.text
  | none, [] :: _ :: _ => ['/', '.']
  | none, _ => []

/-- A sign and what follows it, if there is something. -/
def signed (sign : Char) : Option (List Char) → List Char
  | some text => sign :: text
  | none => []

def text (u : Url) : String :=
  u.scheme ++ ":" ++ String.ofList (front u.authority u.segments ++ u.segments.flatMap ('/' :: ·) ++
    signed '?' u.query ++ signed '#' u.fragment)

end Url

end ModuleSearch
