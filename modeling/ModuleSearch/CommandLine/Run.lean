import ModuleSearch.CommandLine.Request
import ModuleSearch.Installation
import ModuleSearch.Module.Location

/-!
# Carrying out a command line

A module path and an installation are searched, the module path first. `list` prints a line for
each module, `find` prints where a module is, and `describe` prints its descriptor as JSON. If
something fails, nothing but an error is printed.
-/

namespace ModuleSearch.CommandLine

inductive Failure where
  | nothingToSearch
  | noInstallation (home : Path) (cause : SearchError)
  | search (error : SearchError)
  | notFound (name : String)
  deriving DecidableEq, Repr

namespace Failure

def message : Failure → String
  | nothingToSearch => "Nothing to search: pass --module-path or --home"
  | noInstallation home _ => "Failed to open installation " ++ home.text
  | search error => error.message
  | notFound name => "Module " ++ name ++ " not found"

def cause? : Failure → Option String
  | noInstallation _ cause => some cause.message
  | search (.badDescriptor _ cause) => some cause.message
  | _ => none

/-- Each line of a text after four blanks. -/
def indent (text : String) : String :=
  String.ofList (' ' :: ' ' :: ' ' :: ' ' ::
    text.toList.flatMap fun c => if c = '\n' then ['\n', ' ', ' ', ' ', ' '] else [c])

def report (f : Failure) : String :=
  match f.cause? with
  | none => "Error: " ++ f.message ++ "\n"
  | some cause => "Error: " ++ f.message ++ "\n\nCaused by:\n" ++ indent cause ++ "\n"

end Failure

/-- What is left when a command line has been carried out. -/
structure Outcome where
  exitCode : Nat
  output : String
  /-- The report of a failure alone; what is logged is not kept. -/
  error : String
  deriving DecidableEq, Repr

namespace Outcome

def usageText : String :=
  "Usage: [OPTIONS] list | find NAME | describe NAME\n\n" ++
    "  -p, --module-path PATHS  directories and archives, separated by colons\n" ++
    "      --home DIR           the root of a runtime installation\n" ++
    "  -v, --verbose\n" ++
    "  -h, --help\n"

def ofStop : Stop → Outcome
  | .usage => { exitCode := 2, output := "", error := usageText }
  | .help => { exitCode := 0, output := usageText, error := "" }

def ofAnswer : Except Failure String → Outcome
  | .ok output => { exitCode := 0, output, error := "" }
  | .error failure => { exitCode := 1, output := "", error := failure.report }

end Outcome

/-- What is searched for a module path and a home. -/
def catalogOf (storage : Storage) (modulePath home : Option String) : Except Failure Catalog := do
  let onPath := modulePath.map fun text => Catalog.ofEntries (Request.entriesOf text)
  let installed ← home.mapM fun text =>
    (Installation.catalog storage Installation.permitsAll ⟨text⟩).mapError
      (Failure.noInstallation ⟨text⟩)
  match onPath, installed with
  | some first, some second => return first.append second
  | some c, none => return c
  | none, some c => return c
  | none, none => throw .nothingToSearch

def locationText (workingDirectory : Path) (m : LocatedModule) : String :=
  (m.location? workingDirectory).getD "-"

/-- The line of a module in a listing. -/
def line (workingDirectory : Path) (m : LocatedModule) : String :=
  m.descriptor.nameAndVersion ++ " " ++ locationText workingDirectory m ++ "\n"

/-- The module of a name, which must be there. -/
def lookup (s : Surroundings) (c : Catalog) (name : String) : Except Failure LocatedModule :=
  match (c.find s name).1 with
  | .error e => .error (.search e)
  | .ok none => .error (.notFound name)
  | .ok (some m) => .ok m

def Command.answer (s : Surroundings) (workingDirectory : Path) (c : Catalog) :
    Command → Except Failure String
  | list =>
    match (c.findAll s).1 with
    | .error e => .error (.search e)
    | .ok modules => .ok (String.join (modules.map (line workingDirectory)))
  | find name => (lookup s c name).map fun m => locationText workingDirectory m ++ "\n"
  | describe name => (lookup s c name).map fun m => m.descriptor.toJson.pretty ++ "\n"

def Request.answer (s : Surroundings) (workingDirectory : Path) (r : Request) :
    Except Failure String := do
  let c ← catalogOf s.storage r.modulePath r.home
  r.command.answer s workingDirectory c

def run (s : Surroundings) (workingDirectory : Path) (environment : Environment)
    (arguments : List String) : Outcome :=
  match Request.ofArguments environment arguments with
  | .error stop => .ofStop stop
  | .ok request => .ofAnswer (request.answer s workingDirectory)

end ModuleSearch.CommandLine
