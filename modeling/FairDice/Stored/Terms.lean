import FairDice.Stored.Names
import FairDice.Term

/-!
# Stored terms

The tag `kind` tells dice from constants; it may stand anywhere in an object, and
comes first in an array.
-/
namespace FairDice

namespace Term

def toJson : Term → Json
  | .dice sign count sides raw =>
    .obj [("kind", .str "dice"), ("sign", sign.toJson), ("count", .ofUInt32 count),
      ("sides", .ofUInt32 sides), ("raw", .str raw)]
  | .constant sign value raw =>
    .obj [("kind", .str "const"), ("sign", sign.toJson), ("value", .ofUInt64 value),
      ("raw", .str raw)]

def diceOfJson? (value : Json) : Option Term := do
  let [sign, count, sides, raw] ← value.record? ["sign", "count", "sides", "raw"] | none
  return .dice (← Sign.ofTermJson? sign) (← count.uint32?) (← sides.uint32?) (← raw.str?)

def constantOfJson? (value : Json) : Option Term := do
  let [sign, number, raw] ← value.record? ["sign", "value", "raw"] | none
  return .constant (← Sign.ofTermJson? sign) (← number.uint64?) (← raw.str?)

/-- The tag of a stored term, and what it stands on. -/
def tagged? : Json → Option (Json × Json)
  | .arr (tag :: items) => some (tag, .arr items)
  | value => (value.field? "kind").map (·, value)

def ofJson? (value : Json) : Option Term := do
  let (tag, content) ← tagged? value
  match tag with
  | .str "dice" => diceOfJson? content
  | .str "const" => constantOfJson? content
  | _ => none

end Term

def Terms.toJson (terms : Terms) : Json := .arr (terms.toList.map Term.toJson)

end FairDice
