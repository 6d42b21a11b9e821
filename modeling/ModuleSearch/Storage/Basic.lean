import ModuleSearch.Path

/-!
# Storage

What a search may ask of the files around it. A question that fails has no answer; why it failed
does not matter to a search.
-/

namespace ModuleSearch

structure Storage where
  isPresent : Path → Bool
  isDirectory : Path → Bool
  isFile : Path → Bool
  /-- The paths of what lies directly in a directory, in ascending order. -/
  children : Path → Option (List Path)
  read : Path → Option ByteArray
  /-- At most so many bytes from the start of a file. -/
  head : Path → Nat → Option ByteArray
  /-- No directory lies inside so many others. -/
  depth : Nat

end ModuleSearch
