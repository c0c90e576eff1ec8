import FairDice.Limits
import FairDice.Stored.Fields

/-!
# Stored limits

A bound that is missing is the default one, and a looser one is clamped to it.
-/
namespace FairDice.Limits

def toJson (limits : Limits) : Json :=
  .obj [("maxTerms", .int limits.maxTerms), ("maxSides", .int limits.maxSides),
    ("maxDice", .int limits.maxDice)]

/-- A bound below `size`, the other one if it is missing. -/
def bound? (size other : Nat) : Option Json → Option Nat
  | none => some other
  | some value => value.nat? size

def ofJson? (value : Json) : Option Limits := do
  let [maxTerms, maxSides, maxDice] ← value.partialRecord? ["maxTerms", "maxSides", "maxDice"]
    | none
  let maxTerms ← bound? UInt64.size default.maxTerms maxTerms
  let maxSides ← bound? UInt32.size default.maxSides maxSides
  let maxDice ← bound? UInt32.size default.maxDice maxDice
  return default.setAll [.maxTerms maxTerms, .maxSides maxSides, .maxDice maxDice]

end FairDice.Limits
