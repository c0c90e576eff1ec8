import FairDice.Evaluation

/-!
# Checks on a finished evaluation

These hold whatever the dice showed: every face is on its die, totals add up, and
the kept roll set is the one the mode selects.
-/
namespace FairDice

namespace TermRoll

def isInRange (sides : UInt32) (roll : TermRoll) : Bool :=
  roll.rolls.all fun face => 1 ≤ face && face ≤ sides

def isInRangeOf (roll : TermRoll) : Term → Bool
  | .dice _ _ sides _ => roll.isInRange sides
  | .constant .. => true

def isSummed (sign : Sign) (roll : TermRoll) : Bool :=
  roll.isConstant || roll.total == sign.apply (faceSum roll.rolls)

/-- The total, where the dice have no say in it. -/
def certainTotal? (term : Term) (roll : TermRoll) : Option Int64 :=
  if term.isDeterministic then some roll.total else none

end TermRoll

def RollSet.isSummed (set : RollSet) : Bool :=
  set.total == (set.terms.map TermRoll.total).sum

namespace Evaluation

/-- Whether the kept roll set is the one the mode selects, and the total is its total. -/
def isSelected (e : Evaluation) : Bool :=
  e.selectedIndex.toNat == e.mode.select (e.rollSets.map RollSet.total)
    && e.selected?.map RollSet.total == some e.total

def certainTotal? (terms : Terms) (e : Evaluation) : Option Int64 :=
  if terms.isDeterministic then some e.total else none

end Evaluation
end FairDice
