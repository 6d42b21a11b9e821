import ModuleSearch.CommandLine.Options
import ModuleSearch.Path

/-!
# Requests

What a command line asks for: a command and where to search. What stands after the command counts
more than what stands before it, and both count more than the environment.
-/

namespace ModuleSearch.CommandLine

inductive Command where
  | list
  | find (name : String)
  | describe (name : String)
  deriving DecidableEq, Repr

namespace Command

def operandCount? : String → Option Nat
  | "list" => some 0
  | "find" => some 1
  | "describe" => some 1
  | _ => none

def ofOperands? : String → List String → Option Command
  | "list", [] => some list
  | "find", [name] => some (find name)
  | "describe", [name] => some (describe name)
  | _, _ => none

/-- Whether `help` may be followed by these arguments. -/
def isHelpTopic : List String → Bool
  | [] => true
  | [name] => name == "help" || (operandCount? name).isSome
  | _ => false

end Command

structure Request where
  command : Command
  modulePath : Option String
  home : Option String
  deriving DecidableEq, Repr

/-- The values that the environment gives to options. -/
structure Environment where
  modulePath : Option String := none
  home : Option String := none
  deriving DecidableEq, Repr

namespace Environment

def modulePathVariable : String := "MODFIND_MODULE_PATH"

def homeVariable : String := "MODFIND_HOME"

/-- Whether the environment may stand in for what these options leave open. -/
def suits (e : Environment) (o : Options) : Bool := o.home.isSome || e.home != some ""

end Environment

namespace Request

def ofOptions (environment : Environment) (before after : Options) (command : Command) :
    Except Stop Request :=
  if environment.suits before && environment.suits after then
    .ok
      { command
        modulePath := after.modulePath.or (before.modulePath.or environment.modulePath)
        home := after.home.or (before.home.or environment.home) }
  else .error .usage

def ofArguments (environment : Environment) (arguments : List String) : Except Stop Request := do
  match ← ({} : Options).readBefore none arguments with
  | (_, []) => throw .usage
  | (before, word :: rest) =>
    match Command.operandCount? word with
    | none => throw (if word = "help" ∧ Command.isHelpTopic rest then .help else .usage)
    | some count =>
      let (after, operands) ← ({} : Options).readAfter none count rest
      match Command.ofOperands? word operands with
      | none => throw .usage
      | some command => ofOptions environment before after command

/-- The entries of a module path, which are separated by colons. -/
def entriesOf (modulePath : String) : List Path :=
  (modulePath.toList.splitOn ':').map fun entry => ⟨String.ofList entry⟩

end Request

end ModuleSearch.CommandLine
