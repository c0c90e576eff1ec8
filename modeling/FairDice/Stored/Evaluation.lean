import FairDice.Evaluation
import FairDice.Stored.Names

/-!
# Stored rolls and evaluations

What is read back is taken as it stands: totals are not added up again, and the
kept roll set need not be there.
-/
namespace FairDice

namespace TermRoll

def toJson (roll : TermRoll) : Json :=
  .obj [("term", .str roll.term), ("rolls", .arr (roll.rolls.map .ofUInt32)),
    ("termTotal", .ofInt64 roll.total)]

def ofJson? (value : Json) : Option TermRoll := do
  let [term, rolls, total] ← value.record? ["term", "rolls", "termTotal"] | none
  return ⟨← term.str?, ← rolls.list? Json.uint32?, ← total.int64?⟩

end TermRoll

namespace RollSet

def toJson (set : RollSet) : Json :=
  .obj [("terms", .arr (set.terms.map TermRoll.toJson)), ("total", .ofInt64 set.total)]

def ofJson? (value : Json) : Option RollSet := do
  let [terms, total] ← value.record? ["terms", "total"] | none
  return ⟨← terms.list? TermRoll.ofJson?, ← total.int64?⟩

end RollSet

namespace Evaluation

def toJson (e : Evaluation) : Json :=
  .obj [("expression", .str e.expression), ("mode", e.mode.toJson),
    ("rollSets", .arr (e.rollSets.map RollSet.toJson)),
    ("selectedIndex", .ofUInt64 e.selectedIndex), ("total", .ofInt64 e.total)]

def ofJson? (value : Json) : Option Evaluation := do
  let [expression, mode, rollSets, selectedIndex, total] ←
    value.record? ["expression", "mode", "rollSets", "selectedIndex", "total"] | none
  return ⟨← expression.str?, ← Mode.ofJson? mode, ← rollSets.list? RollSet.ofJson?,
    ← selectedIndex.uint64?, ← total.int64?⟩

end Evaluation
end FairDice
