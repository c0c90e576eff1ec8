/-!
# Why a die could not be rolled
-/
namespace FairDice

inductive Fault where
  /-- No prepared face is left. -/
  | facesExhausted
  /-- No random word is left. -/
  | wordsExhausted
  /-- The die has no sides. -/
  | noSides
  deriving DecidableEq, Repr

def Fault.message : Fault → String
  | .facesExhausted => "iterator is finished"
  | .wordsExhausted => "rng words exhausted"
  | .noSides => "invalid random range: a die must have at least one side"

end FairDice
