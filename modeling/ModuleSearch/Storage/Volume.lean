import ModuleSearch.Storage.Basic

/-!
# Volumes

A volume is a tree of files and directories held in memory. A path is followed part by part:
before each part the place that is reached must be a directory; an empty part and a single dot
stay there, two dots go up, and a name goes down. A path that does not start at the root starts at
the working directory, if the volume has one.

Single places can be made to fail in one of the ways of `Fault`.

Main statement: `node?_location`, by which a trail ends at the node of its location.
-/

namespace ModuleSearch

inductive Node where
  | file (content : ByteArray)
  /-- Names are in ascending order. -/
  | directory (children : List (String × Node))

/-- The names on the way from the root to a node. -/
abbrev Location := List String

namespace Node

def emptyDirectory : Node := directory []

def children : Node → List (String × Node)
  | file _ => []
  | directory children => children

def isDirectory : Node → Bool
  | file _ => false
  | directory _ => true

def isFile (n : Node) : Bool := !n.isDirectory

def child? (n : Node) (name : String) : Option Node := n.children.lookup name

def at? (n : Node) : Location → Option Node
  | [] => some n
  | name :: rest => (n.child? name).bind fun child => child.at? rest

/-- Replaces the value at a name by `f` of what was there, keeping the order of names. -/
def updateChild (name : String) (f : Option Node → Node) : List (String × Node) → List (String × Node)
  | [] => [(name, f none)]
  | (k, n) :: rest =>
    if name < k then (name, f none) :: (k, n) :: rest
    else if name = k then (k, f (some n)) :: rest
    else (k, n) :: updateChild name f rest

/-- Puts a node at a location; directories on the way that are not there are made. -/
def put (new : Node) : Location → Node → Node
  | [], _ => new
  | name :: rest, n =>
    directory (updateChild name (fun old => put new rest (old.getD emptyDirectory)) n.children)

def remove : Location → Node → Node
  | [], _ => emptyDirectory
  | [name], n => directory (n.children.filter fun c => c.1 != name)
  | name :: rest, n =>
    directory (n.children.map fun c => if c.1 = name then (c.1, remove rest c.2) else c)

mutual

/-- The greatest number of directories inside one another. -/
def depth : Node → Nat
  | file _ => 0
  | directory children => depthList children + 1

def depthList : List (String × Node) → Nat
  | [] => 0
  | (_, n) :: rest => max n.depth (depthList rest)

end

theorem at?_append_singleton (n : Node) (location : Location) (name : String) :
    n.at? (location ++ [name]) = (n.at? location).bind fun m => m.child? name := by
  induction location generalizing n with
  | nil =>
    change (n.child? name).bind some = n.child? name
    exact Option.bind_fun_some _
  | cons first rest ih =>
    simp only [List.cons_append, at?, Option.bind_assoc]
    exact congrArg _ (funext fun child => ih child)

end Node

/-- A way down from the root: each name with the node it leads to, the last one first. -/
abbrev Trail := List (String × Node)

namespace Trail

def location (trail : Trail) : Location := (trail.map Prod.fst).reverse

theorem location_cons (e : String × Node) (above : Trail) :
    location (e :: above) = location above ++ [e.1] := by
  simp [location]

end Trail

inductive Fault where
  /-- The whole content cannot be read. -/
  | read
  /-- The start of the content cannot be read. -/
  | head
  /-- The directory cannot be listed. -/
  | list
  /-- The place is listed in its directory although nothing is there. -/
  | ghost
  deriving DecidableEq, Repr

structure Volume where
  root : Node := .emptyDirectory
  faults : List (Location × Fault) := []
  workingDirectory : Option Location := none

namespace Volume

def hasFault (v : Volume) (location : Location) (fault : Fault) : Bool :=
  v.faults.any fun f => f.1 == location && f.2 == fault

def node? (v : Volume) (location : Location) : Option Node := v.root.at? location

/-- The node at which a trail ends. -/
def nodeOf (v : Volume) : Trail → Node
  | [] => v.root
  | (_, n) :: _ => n

/-- Goes down to a name. -/
def enter (v : Volume) (trail : Trail) (name : String) : Option Trail :=
  ((v.nodeOf trail).child? name).map fun n => (name, n) :: trail

/-- Follows one part of a path. -/
def step (v : Volume) (trail : Trail) (part : List Char) : Option Trail :=
  if (v.nodeOf trail).isFile then none
  else if !Path.isSegment part then some trail
  else if part = ['.', '.'] then some trail.tail
  else v.enter trail (String.ofList part)

def follow (v : Volume) (start : Trail) (parts : List (List Char)) : Option Trail :=
  parts.foldlM v.step start

/-- The way to the place that a path leads to. -/
def locate (v : Volume) (p : Path) : Option Trail :=
  if p.isAbsolute then v.follow [] p.parts.tail
  else if p.text.isEmpty then none
  else do v.follow (← (← v.workingDirectory).foldlM v.enter []) p.parts

def nodeAt? (v : Volume) (p : Path) : Option Node := (v.locate p).map v.nodeOf

/-- Whether each node of a trail is the child of its name of the one before it. -/
def Holds (v : Volume) : Trail → Prop
  | [] => True
  | (name, n) :: above => (v.nodeOf above).child? name = some n ∧ v.Holds above

theorem holds_nil (v : Volume) : v.Holds [] := trivial

theorem holds_enter {v : Volume} {trail next : Trail} {name : String} (h : v.Holds trail)
    (he : v.enter trail name = some next) : v.Holds next := by
  obtain ⟨n, hn, rfl⟩ := Option.map_eq_some_iff.1 he
  exact ⟨hn, h⟩

theorem holds_enterAll {v : Volume} {start trail : Trail} {location : Location}
    (h : v.Holds start) (he : location.foldlM v.enter start = some trail) : v.Holds trail := by
  induction location generalizing start with
  | nil => exact Option.some.inj he ▸ h
  | cons name rest ih =>
    simp only [List.foldlM_cons, Option.bind_eq_bind, Option.bind_eq_some_iff] at he
    obtain ⟨next, hn, he⟩ := he
    exact ih (holds_enter h hn) he

theorem holds_step {v : Volume} {trail next : Trail} {part : List Char} (h : v.Holds trail)
    (hs : v.step trail part = some next) : v.Holds next := by
  unfold step at hs
  split at hs
  · cases hs
  · split at hs
    · exact Option.some.inj hs ▸ h
    · split at hs
      · obtain rfl := Option.some.inj hs
        cases trail with
        | nil => exact h
        | cons _ _ => exact h.2
      · exact holds_enter h hs

theorem holds_follow {v : Volume} {start trail : Trail} {parts : List (List Char)}
    (h : v.Holds start) (hf : v.follow start parts = some trail) : v.Holds trail := by
  induction parts generalizing start with
  | nil => exact Option.some.inj hf ▸ h
  | cons part rest ih =>
    simp only [follow, List.foldlM_cons, Option.bind_eq_bind, Option.bind_eq_some_iff] at hf
    obtain ⟨next, hn, hf⟩ := hf
    exact ih (holds_step h hn) hf

theorem holds_locate {v : Volume} {p : Path} {trail : Trail} (h : v.locate p = some trail) :
    v.Holds trail := by
  unfold locate at h
  split at h
  · exact holds_follow v.holds_nil h
  · split at h
    · cases h
    · simp only [Option.bind_eq_bind, Option.bind_eq_some_iff] at h
      obtain ⟨_, _, _, hs, h⟩ := h
      exact holds_follow (holds_enterAll v.holds_nil hs) h

/-- A trail ends at the node of its location. -/
theorem node?_location {v : Volume} {trail : Trail} (h : v.Holds trail) :
    v.node? trail.location = some (v.nodeOf trail) := by
  induction trail with
  | nil => rfl
  | cons e above ih =>
    rw [Trail.location_cons, node?, Node.at?_append_singleton]
    change (v.node? (Trail.location above)).bind _ = _
    rw [ih h.2]
    exact h.1

/-- Inserts a name into an ascending list of names. -/
def insertName (name : String) : List String → List String
  | [] => [name]
  | k :: rest =>
    if name < k then name :: k :: rest
    else if name = k then k :: rest
    else k :: insertName name rest

/-- The name of a place in a directory that is listed although nothing is there. -/
def ghostIn? (directory : Location) (fault : Location × Fault) : Option String :=
  if fault.2 = .ghost ∧ fault.1.dropLast = directory then fault.1.getLast? else none

def listedNames (v : Volume) (directory : Location) (n : Node) : List String :=
  (v.faults.filterMap (ghostIn? directory)).foldl (fun names g => insertName g names)
    (n.children.map Prod.fst)

def childPaths (v : Volume) (p : Path) : Option (List Path) := do
  let trail ← v.locate p
  match v.nodeOf trail with
  | .file _ => none
  | n =>
    if v.hasFault trail.location .list then none
    else return (v.listedNames trail.location n).map p.child

/-- The content of the file at a path, if reading it in this way does not fail. -/
def content (v : Volume) (fault : Fault) (p : Path) : Option ByteArray := do
  let trail ← v.locate p
  match v.nodeOf trail with
  | .file content => if v.hasFault trail.location fault then none else return content
  | .directory _ => none

def storage (v : Volume) : Storage where
  isPresent p := (v.nodeAt? p).isSome
  isDirectory p := (v.nodeAt? p).any Node.isDirectory
  isFile p := (v.nodeAt? p).any Node.isFile
  children := v.childPaths
  read := v.content .read
  head p n := (v.content .head p).map fun content => content.extract 0 n
  depth := v.root.depth

/-- The location that a path names by itself, whatever is there. -/
def locationOf (p : Path) : Location := p.segments.map String.ofList

def write (v : Volume) (p : Path) (content : ByteArray) : Volume :=
  { v with root := Node.put (.file content) (locationOf p) v.root }

/-- Makes a directory, unless it is there. -/
def makeDirectory (v : Volume) (p : Path) : Volume :=
  match v.node? (locationOf p) with
  | some (.directory _) => v
  | _ => { v with root := Node.put .emptyDirectory (locationOf p) v.root }

def remove (v : Volume) (p : Path) : Volume :=
  { v with root := Node.remove (locationOf p) v.root }

def withFaults (v : Volume) (faults : List (Path × Fault)) : Volume :=
  { v with faults := faults.map fun f => (locationOf f.1, f.2) }

def ofFiles (files : List (Path × ByteArray)) (directories : List Path) : Volume :=
  let v : Volume := {}
  directories.foldl makeDirectory (files.foldl (fun v f => v.write f.1 f.2) v)

end Volume

end ModuleSearch
