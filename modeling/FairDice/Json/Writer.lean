import FairDice.Json.Basic
import FairDice.Json.Text

/-!
# The compact text of a JSON value

There are no blanks in it, and fields stay in the order in which they stand.
-/
namespace FairDice.Json

mutual

def chars : Json → List Char
  | .null => "null".toList
  | .bool true => "true".toList
  | .bool false => "false".toList
  | .int value => (toString value).toList
  | .decimal text => text.toList
  | .str text => quote text
  | .arr items => '[' :: itemChars items ++ [']']
  | .obj fields => '\x7b' :: fieldChars fields ++ ['\x7d']

def itemChars : List Json → List Char
  | [] => []
  | [item] => item.chars
  | item :: rest => item.chars ++ ',' :: itemChars rest

def fieldChars : List (String × Json) → List Char
  | [] => []
  | [(name, value)] => quote name ++ ':' :: value.chars
  | (name, value) :: rest => quote name ++ ':' :: value.chars ++ ',' :: fieldChars rest

end

def write (value : Json) : String := String.ofList value.chars

@[simp] theorem toList_write (value : Json) : value.write.toList = value.chars :=
  String.toList_ofList

end FairDice.Json
