/-!
# JSON values

Numbers without a fraction and an exponent are integers of any size; other
numbers keep their text. An object keeps its fields in the order in which they
stand; of two fields with one name the later one counts.
-/
namespace FairDice

inductive Json where
  | null
  | bool (value : Bool)
  | int (value : Int)
  /-- A number with a fraction or an exponent, or a negative zero, as it is written. -/
  | decimal (text : String)
  | str (value : String)
  | arr (items : List Json)
  | obj (fields : List (String × Json))
  deriving Inhabited, Repr

namespace Json

def field? (name : String) : Json → Option Json
  | .obj fields => fields.reverse.lookup name
  | _ => none

end Json
end FairDice
