import ModuleSearch.Archive

/-!
# Located modules

A module that was found: its descriptor and where its content lies.
-/

namespace ModuleSearch

inductive Source where
  | packaged (path : Path) (format : ArchiveFormat)
  | exploded (directory : Path)
  /-- A module in a packed image. -/
  | image (image : Path) (module : String)
  deriving DecidableEq, Repr

namespace Source

/-- Equality up to the spelling of paths. -/
def same : Source → Source → Bool
  | packaged p f, packaged q g => p.same q && f == g
  | exploded p, exploded q => p.same q
  | image p m, image q n => p.same q && m == n
  | _, _ => false

end Source

structure LocatedModule where
  descriptor : Descriptor
  source : Source
  deriving DecidableEq, Repr

namespace LocatedModule

def name (m : LocatedModule) : String := m.descriptor.name

def same (m n : LocatedModule) : Bool := m.descriptor == n.descriptor && m.source.same n.source

end LocatedModule

end ModuleSearch
