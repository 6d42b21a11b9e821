import ModuleSearch.NameMap
import ModuleSearch.Text.Hex

/-!
# JSON values

A value as it is written: the members of an object keep their order and may repeat a key, and a
number is its literal. `Json.pretty` writes a value over several lines.
-/

namespace ModuleSearch

inductive Json where
  | null
  | bool (value : Bool)
  | number (literal : String)
  | string (value : String)
  | array (items : List Json)
  | object (members : List (String × Json))
  deriving BEq, Repr, Inhabited

namespace Json

def strings (values : List String) : Json := array (values.map string)

def asString? : Json → Option String
  | string value => some value
  | _ => none

/-- A string, or nothing for `null`. -/
def asOptionalString? : Json → Option (Option String)
  | null => some none
  | string value => some (some value)
  | _ => none

def asItems? : Json → Option (List Json)
  | array items => some items
  | _ => none

def asStrings? (v : Json) : Option (List String) := v.asItems?.bind fun items => items.mapM asString?

def stringListMember? (m : String × Json) : Option (String × List String) :=
  m.2.asStrings?.map fun list => (m.1, list)

/-- The lists of strings of an object; of two members with one key the later is meant. -/
def asStringLists? : Json → Option (NameMap (List String))
  | object members => (members.mapM stringListMember?).map NameMap.ofList
  | _ => none

/-- Control characters, the quote and the backslash are escaped. -/
def escapeChar (c : Char) : List Char :=
  match c with
  | '"' => ['\\', '"']
  | '\\' => ['\\', '\\']
  | '\x08' => ['\\', 'b']
  | '\x0c' => ['\\', 'f']
  | '\n' => ['\\', 'n']
  | '\r' => ['\\', 'r']
  | '\t' => ['\\', 't']
  | c =>
    if c.toNat < 32 then
      ['\\', 'u', '0', '0', Text.Hex.lowerDigit (c.toNat / 16), Text.Hex.lowerDigit (c.toNat % 16)]
    else [c]

def quote (text : String) : String :=
  "\"" ++ String.ofList (text.toList.flatMap escapeChar) ++ "\""

/-- The start of a line, two blanks for each level. -/
def newline (level : Nat) : String := "\n" ++ String.ofList (List.replicate (2 * level) ' ')

mutual

def prettyAt (level : Nat) : Json → String
  | null => "null"
  | bool true => "true"
  | bool false => "false"
  | number literal => literal
  | string value => quote value
  | array [] => "[]"
  | array (v :: rest) =>
    "[" ++ newline (level + 1) ++ prettyAt (level + 1) v ++ prettyItems (level + 1) rest ++
      newline level ++ "]"
  | object [] => "\x7b\x7d"
  | object ((k, v) :: rest) =>
    "\x7b" ++ newline (level + 1) ++ quote k ++ ": " ++ prettyAt (level + 1) v ++
      prettyMembers (level + 1) rest ++ newline level ++ "\x7d"

def prettyItems (level : Nat) : List Json → String
  | [] => ""
  | v :: rest => "," ++ newline level ++ prettyAt level v ++ prettyItems level rest

def prettyMembers (level : Nat) : List (String × Json) → String
  | [] => ""
  | (k, v) :: rest =>
    "," ++ newline level ++ quote k ++ ": " ++ prettyAt level v ++ prettyMembers level rest

end

/-- One item or member a line, two blanks of indentation a level. -/
def pretty (v : Json) : String := prettyAt 0 v

end Json

end ModuleSearch
