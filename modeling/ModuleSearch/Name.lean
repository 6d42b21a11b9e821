/-!
# Legal names

A module name is a sequence of parts separated by dots; a part is not empty and holds ASCII
letters, ASCII digits, `_` and `$`. The parts of a qualified name (a package or a class) moreover
do not start with a digit. Module names may have such parts because they are also derived from
file names.
-/

namespace ModuleSearch.Name

def isNameChar (c : Char) : Bool := c.isAlphanum || c == '_' || c == '$'

def parts (name : String) : List (List Char) := name.toList.splitOn '.'

def isModulePart (part : List Char) : Bool := !part.isEmpty && part.all isNameChar

def isQualifiedPart : List Char → Bool
  | [] => false
  | c :: rest => !c.isDigit && (c :: rest).all isNameChar

def isModuleName (name : String) : Bool := (parts name).all isModulePart

def isQualifiedName (name : String) : Bool := (parts name).all isQualifiedPart

end ModuleSearch.Name
