/-!
# Paths

A path is a text whose parts are separated by slashes. It is shown as it is written, while
`Path.same` compares paths by their components: repeated slashes, a slash at the end and parts
that are a single dot do not count, but for a dot at the start of a relative path.
-/

namespace ModuleSearch

structure Path where
  text : String
  deriving DecidableEq, Repr, Inhabited

namespace Path

inductive Component where
  | root
  /-- A single dot at the start of a relative path. -/
  | current
  | parent
  | name (name : List Char)
  deriving DecidableEq, Repr

def parts (p : Path) : List (List Char) := p.text.toList.splitOn '/'

def isAbsolute (p : Path) : Bool := p.text.toList.head? == some '/'

/-- Whether a part names something: it is neither empty nor a single dot. -/
def isSegment (part : List Char) : Bool := !part.isEmpty && part != ['.']

/-- The parts that name something; two dots are one of them. -/
def segments (p : Path) : List (List Char) := p.parts.filter isSegment

def Component.ofSegment (segment : List Char) : Component :=
  if segment = ['.', '.'] then .parent else .name segment

def start (p : Path) : List Component :=
  if p.isAbsolute then [.root]
  else if p.parts.head? = some ['.'] then [.current]
  else []

def components (p : Path) : List Component := p.start ++ p.segments.map Component.ofSegment

/-- Equality of paths as places. -/
def same (p q : Path) : Bool := p.components == q.components

/-- The last component, if it is a name. -/
def fileName? (p : Path) : Option String :=
  match p.components.getLast? with
  | some (.name name) => some (String.ofList name)
  | _ => none

/-- An absolute second path stands alone; else a slash is put between the two unless the first
ends with one or is empty. -/
def join (p q : Path) : Path :=
  if q.isAbsolute then q
  else if p.text.isEmpty || p.text.toList.getLast? == some '/' then ⟨p.text ++ q.text⟩
  else ⟨p.text ++ "/" ++ q.text⟩

def child (p : Path) (name : String) : Path := p.join ⟨name⟩

end Path

end ModuleSearch
