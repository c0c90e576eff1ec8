import FairDice.Json.Basic

/-!
# The structure of a JSON text, read piece by piece

What has been read so far is a stack of arrays and objects that are not closed
yet, and what may come next.
-/
namespace FairDice.Json

/-- An array or object that is not closed yet, what was read last in front. -/
inductive Frame where
  | items (done : List Json)
  /-- The value of the field `name` is being read. -/
  | fields (done : List (String × Json)) (name : String)

/-- What may come next, inside the frames of `outer`. -/
inductive Outline where
  | needValue (outer : List Frame)
  | itemOrEnd (outer : List Frame)
  | itemRead (done : List Json) (outer : List Frame)
  | nameOrEnd (outer : List Frame)
  | needName (done : List (String × Json)) (outer : List Frame)
  | nameRead (done : List (String × Json)) (name : String) (outer : List Frame)
  | fieldRead (done : List (String × Json)) (outer : List Frame)
  | complete (value : Json)

namespace Outline

def deliver (value : Json) : List Frame → Outline
  | [] => .complete value
  | .items done :: outer => .itemRead (value :: done) outer
  | .fields done name :: outer => .fieldRead ((name, value) :: done) outer

/-- The frames around a value, if one may come next. -/
def aroundValue? : Outline → Option (List Frame)
  | .needValue outer => some outer
  | .itemOrEnd outer => some (.items [] :: outer)
  | _ => none

def scalar (outline : Outline) (value : Json) : Option Outline :=
  outline.aroundValue?.map (deliver value)

def quoted (outline : Outline) (text : String) : Option Outline :=
  match outline with
  | .nameOrEnd outer => some (.nameRead [] text outer)
  | .needName done outer => some (.nameRead done text outer)
  | outline => outline.scalar (.str text)

def punctuation (outline : Outline) (c : Char) : Option Outline :=
  match c, outline with
  | '[', outline => outline.aroundValue?.map itemOrEnd
  | '\x7b', outline => outline.aroundValue?.map nameOrEnd
  | ']', .itemOrEnd outer => some (deliver (.arr []) outer)
  | ']', .itemRead done outer => some (deliver (.arr done.reverse) outer)
  | '\x7d', .nameOrEnd outer => some (deliver (.obj []) outer)
  | '\x7d', .fieldRead done outer => some (deliver (.obj done.reverse) outer)
  | ',', .itemRead done outer => some (.needValue (.items done :: outer))
  | ',', .fieldRead done outer => some (.needName done outer)
  | ':', .nameRead done name outer => some (.needValue (.fields done name :: outer))
  | _, _ => none

def value? : Outline → Option Json
  | .complete value => some value
  | _ => none

end Outline
end FairDice.Json
