import ModuleSearch.Path
import ModuleSearch.Text.Utf8

/-!
# Paths as bytes

What a file system keeps as a path are bytes, which need not be a text. Its components are divided
as those of a `Path`. Where a path or a name is shown, what is no text in it is replaced.
-/

namespace ModuleSearch

structure BytePath where
  bytes : List UInt8
  deriving DecidableEq, Repr, Inhabited

namespace BytePath

def slash : UInt8 := 0x2F

def dot : UInt8 := 0x2E

/-- The parts that name something; two dots are one of them. -/
def segments (p : BytePath) : List (List UInt8) :=
  (p.bytes.splitOn slash).filter fun part => !part.isEmpty && part != [dot]

/-- The last component, if it is a name. -/
def fileName? (p : BytePath) : Option (List UInt8) :=
  match p.segments.getLast? with
  | some name => if name = [dot, dot] then none else some name
  | none => none

/-- An absolute name stands alone; else a slash is put between the two unless the path ends with
one or is empty. -/
def child (p : BytePath) (name : List UInt8) : BytePath :=
  if name.head? == some slash then ⟨name⟩
  else if p.bytes.isEmpty || p.bytes.getLast? == some slash then ⟨p.bytes ++ name⟩
  else ⟨p.bytes ++ slash :: name⟩

def ofPath (p : Path) : BytePath := ⟨p.text.toUTF8.data.toList⟩

def toPathLossy (p : BytePath) : Path := ⟨Text.Utf8.decodeLossy p.bytes⟩

end BytePath

end ModuleSearch
