import ModuleSearch.CommandLine.Run
import ModuleSearch.Storage.Snapshot

/-!
# The program

Looks at the files that the search of a command line may need, carries it out and prints what
comes of it.
-/

namespace ModuleSearch.Main

/-- Looks at a path and gives the names in it if it is a directory. One that cannot be listed may
still hold a descriptor. -/
def look (path : Path) (seen : Snapshot) : IO (Snapshot × List String) := do
  if path.text.isEmpty then return (seen, [])
  let place := (← IO.currentDir) / path.text
  match ← place.metadata.toBaseIO with
  | .error _ => return (seen, [])
  | .ok found =>
    match found.type with
    | .file =>
      let content ← (IO.FS.readBinFile place).toBaseIO
      return (seen.insert path.text (.file content.toOption), [])
    | .dir =>
      match ← place.readDir.toBaseIO with
      | .error _ => return (seen.insert path.text (.directory none), [Document.fileName])
      | .ok entries =>
        let names := (entries.toList.map fun entry => entry.fileName).mergeSort
          fun a b => decide (a ≤ b)
        return (seen.insert path.text (.directory (some names)), names)
    | _ => return (seen.insert path.text .other, [])

/-- Looks at a path and so many levels below it, on the last of them only for descriptors. -/
def lookBelow : Nat → Path → Snapshot → IO Snapshot
  | 0, path, seen => return (← look path seen).1
  | levels + 1, path, seen => do
    let (seen, names) ← look path seen
    let names := if levels = 0 then names.filter fun name => name == Document.fileName else names
    names.foldlM (fun seen name => lookBelow levels (path.child name) seen) seen

/-- Looks at everything that a request may need. -/
def observe (request : CommandLine.Request) : IO Snapshot := do
  let onPath := (request.modulePath.map CommandLine.Request.entriesOf).getD []
  let seen ← onPath.foldlM (fun seen entry => lookBelow 2 entry seen) NameMap.empty
  match request.home with
  | none => return seen
  | some home =>
    let seen ← lookBelow 0 (Installation.imagePath ⟨home⟩) seen
    lookBelow 2 (Installation.directoryPath ⟨home⟩) seen

end ModuleSearch.Main

open ModuleSearch in
def main (arguments : List String) : IO UInt32 := do
  let environment : CommandLine.Environment :=
    { modulePath := ← IO.getEnv CommandLine.Environment.modulePathVariable
      home := ← IO.getEnv CommandLine.Environment.homeVariable }
  let seen : Snapshot ← match CommandLine.Request.ofArguments environment arguments with
    | .error _ => pure NameMap.empty
    | .ok request => Main.observe request
  let workingDirectory : Path := ⟨(← IO.currentDir).toString⟩
  let outcome := CommandLine.run ⟨seen.storage, Descriptor.decode⟩ workingDirectory environment
    arguments
  IO.print outcome.output
  IO.eprint outcome.error
  return outcome.exitCode.toUInt32
