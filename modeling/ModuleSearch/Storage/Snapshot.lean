import ModuleSearch.NameMap
import ModuleSearch.Storage.Basic

/-!
# Snapshots

A snapshot holds what was seen at single paths, so that a search needs to look at nothing else. It
answers only for a path that is spelled as it was when it was looked at.
-/

namespace ModuleSearch

inductive Sight where
  | file (content : Option ByteArray)
  /-- The names in it are in ascending order. -/
  | directory (names : Option (List String))
  | other

abbrev Snapshot := NameMap Sight

namespace Snapshot

def at? (s : Snapshot) (p : Path) : Option Sight := s.get? p.text

def content (s : Snapshot) (p : Path) : Option ByteArray :=
  match s.at? p with
  | some (.file content) => content
  | _ => none

def children (s : Snapshot) (p : Path) : Option (List Path) :=
  match s.at? p with
  | some (.directory names) => names.map fun names => names.map p.child
  | _ => none

def storage (s : Snapshot) : Storage where
  isPresent p := (s.at? p).isSome
  isDirectory p :=
    match s.at? p with
    | some (.directory _) => true
    | _ => false
  isFile p :=
    match s.at? p with
    | some (.file _) => true
    | _ => false
  children := s.children
  read := s.content
  head p n := (s.content p).map fun content => content.extract 0 n
  depth := s.entries.length

end Snapshot

end ModuleSearch
