import ModuleSearch.Json.Basic
import ModuleSearch.Json.Token

/-!
# Reading JSON

A machine reads the tokens of a document one by one. Its state says what may come next and holds
the arrays and objects that are open; at most `maxDepth` of them may be open at once. The whole
document is one value in UTF-8.
-/

namespace ModuleSearch.Json

/-- The greatest number of arrays and objects inside one another. -/
def maxDepth : Nat := 127

namespace Reader

/-- An open container that waits for a value. Items and members are held last first. -/
inductive Frame where
  | array (items : List Json)
  | member (members : List (String × Json)) (key : String)

inductive State where
  | value (outer : List Frame)
  /-- An array was opened: a value or its end must come. -/
  | firstItem (outer : List Frame)
  /-- An object was opened: a key or its end must come. -/
  | firstKey (outer : List Frame)
  /-- After a comma in an object. -/
  | key (members : List (String × Json)) (outer : List Frame)
  /-- After a key. -/
  | colon (members : List (String × Json)) (key : String) (outer : List Frame)
  /-- After an item: a comma or the end of the array must come. -/
  | afterItem (items : List Json) (outer : List Frame)
  /-- After a member: a comma or the end of the object must come. -/
  | afterMember (members : List (String × Json)) (outer : List Frame)
  | done (value : Json)

/-- Gives a value to the container that waits for it. -/
def place : List Frame → Json → State
  | [], v => .done v
  | .array items :: outer, v => .afterItem (v :: items) outer
  | .member members key :: outer, v => .afterMember ((key, v) :: members) outer

/-- Reads the first token of a value. -/
def beginValue (outer : List Frame) : Token → Option State
  | .null => some (place outer .null)
  | .bool b => some (place outer (.bool b))
  | .number literal => some (place outer (.number literal))
  | .string s => some (place outer (.string s))
  | .openArray => if outer.length < maxDepth then some (.firstItem outer) else none
  | .openObject => if outer.length < maxDepth then some (.firstKey outer) else none
  | _ => none

def step : State → Token → Option State
  | .value outer, token => beginValue outer token
  | .firstItem outer, .closeArray => some (place outer (.array []))
  | .firstItem outer, token => beginValue (.array [] :: outer) token
  | .firstKey outer, .closeObject => some (place outer (.object []))
  | .firstKey outer, .string key => some (.colon [] key outer)
  | .key members outer, .string key => some (.colon members key outer)
  | .colon members key outer, .colon => some (.value (.member members key :: outer))
  | .afterItem items outer, .comma => some (.value (.array items :: outer))
  | .afterItem items outer, .closeArray => some (place outer (.array items.reverse))
  | .afterMember members outer, .comma => some (.key members outer)
  | .afterMember members outer, .closeObject => some (place outer (.object members.reverse))
  | _, _ => none

def run : State → List Token → Option State
  | state, [] => some state
  | state, token :: rest => (step state token).bind fun state => run state rest

def ofTokens? (tokens : List Token) : Option Json :=
  match run (.value []) tokens with
  | some (.done v) => some v
  | _ => none

theorem run_append (state : State) (a b : List Token) :
    run state (a ++ b) = (run state a).bind fun state => run state b := by
  induction a generalizing state with
  | nil => rfl
  | cons token rest ih =>
    rw [List.cons_append, run, run, Option.bind_assoc]
    exact congrArg _ (funext fun state => ih state)

end Reader

def ofText? (text : String) : Option Json := (Token.tokens? text.toList).bind Reader.ofTokens?

def parse? (document : ByteArray) : Option Json := (String.fromUTF8? document).bind ofText?

end ModuleSearch.Json
