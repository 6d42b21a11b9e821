import ModuleSearch.Text.Cut

/-!
# Options

Options may stand before a command and after it, each at most once on each side. An option takes
its value after `=`, directly after its letter, or from the next argument; the latter must not start
with a hyphen unless it is one. Letters may be joined, and `--` ends the options.
-/

namespace ModuleSearch.CommandLine

inductive Stop where
  | usage
  /-- It asks for help or for the version. -/
  | help
  deriving DecidableEq, Repr

inductive Side where
  | before
  | after
  deriving DecidableEq, Repr

inductive Valued where
  | modulePath
  | home
  deriving DecidableEq, Repr

/-- The options on one side of the command. -/
structure Options where
  modulePath : Option String := none
  home : Option String := none
  verbose : Bool := false
  deriving DecidableEq, Repr

inductive Argument where
  /-- Two hyphens. -/
  | terminator
  | long (name : List Char) (value : Option (List Char))
  | letters (letters : List Char)
  | operand
  deriving DecidableEq, Repr

def Argument.ofText (text : String) : Argument :=
  match text.toList with
  | ['-', '-'] => terminator
  | '-' :: '-' :: rest =>
    let (name, value) := Text.cut '=' rest
    long name value
  | '-' :: c :: rest => letters (c :: rest)
  | _ => operand

/-- Whether an argument may be the value of the option before it. -/
def isValue (text : String) : Bool := text == "-" || text.toList.head? != some '-'

namespace Options

/-- Gives an option its value; the value of `home` is not empty. -/
def set (o : Options) (option : Valued) (value : String) : Except Stop Options :=
  match option with
  | .modulePath =>
    if o.modulePath.isSome then .error .usage else .ok { o with modulePath := some value }
  | .home =>
    if o.home.isSome || value.isEmpty then .error .usage else .ok { o with home := some value }

def setVerbose (o : Options) : Except Stop Options :=
  if o.verbose then .error .usage else .ok { o with verbose := true }

/-- An option with the value that stands in its own argument, if there is one. An option without is
given back, to take the next argument. -/
def setAttached (o : Options) (option : Valued) (value : Option (List Char)) :
    Except Stop (Options × Option Valued) :=
  match value with
  | none => .ok (o, some option)
  | some value => (o.set option (String.ofList value)).map fun o => (o, none)

/-- What follows a letter in its argument, without `=`. -/
def attachedValue? : List Char → Option (List Char)
  | [] => none
  | '=' :: value => some value
  | value => some value

def readLetters (side : Side) (o : Options) : List Char → Except Stop (Options × Option Valued)
  | [] => .ok (o, none)
  | 'p' :: rest => o.setAttached .modulePath (attachedValue? rest)
  | 'v' :: rest => do
    let o ← o.setVerbose
    readLetters side o rest
  | 'h' :: _ => .error .help
  | 'V' :: _ => .error (if side = .before then .help else .usage)
  | _ :: _ => .error .usage

def readLong (side : Side) (o : Options) (name : String) (value : Option (List Char)) :
    Except Stop (Options × Option Valued) :=
  match name, value with
  | "module-path", value => o.setAttached .modulePath value
  | "home", value => o.setAttached .home value
  | "verbose", none => o.setVerbose.map fun o => (o, none)
  | "help", none => .error .help
  | "version", none => .error (if side = .before then .help else .usage)
  | _, _ => .error .usage

/-- The options before the command, and the arguments from the command on. An option may wait for
its value. -/
def readBefore (o : Options) (waiting : Option Valued) :
    List String → Except Stop (Options × List String)
  | [] => if waiting.isSome then .error .usage else .ok (o, [])
  | text :: rest =>
    match waiting with
    | some option =>
      if isValue text then do
        let o ← o.set option text
        readBefore o none rest
      else .error .usage
    | none =>
      match Argument.ofText text with
      | .terminator => .error .usage
      | .operand => .ok (o, text :: rest)
      | .letters letters => do
        let (o, waiting) ← o.readLetters .before letters
        readBefore o waiting rest
      | .long name value => do
        let (o, waiting) ← o.readLong .before (String.ofList name) value
        readBefore o waiting rest

/-- The options after the command, and its operands, of which there is room for so many. -/
def readAfter (o : Options) (waiting : Option Valued) (room : Nat) :
    List String → Except Stop (Options × List String)
  | [] => if waiting.isSome then .error .usage else .ok (o, [])
  | text :: rest =>
    match waiting with
    | some option =>
      if isValue text then do
        let o ← o.set option text
        readAfter o none room rest
      else .error .usage
    | none =>
      match Argument.ofText text with
      | .terminator => if rest.length ≤ room then .ok (o, rest) else .error .usage
      | .operand =>
        match room with
        | 0 => .error .usage
        | room + 1 => do
          let (o, operands) ← readAfter o none room rest
          return (o, text :: operands)
      | .letters letters => do
        let (o, waiting) ← o.readLetters .after letters
        readAfter o waiting room rest
      | .long name value => do
        let (o, waiting) ← o.readLong .after (String.ofList name) value
        readAfter o waiting room rest

end Options

end ModuleSearch.CommandLine
