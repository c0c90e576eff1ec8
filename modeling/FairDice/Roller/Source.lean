import FairDice.Roller.Fault
import FairDice.Roller.Words

/-!
# Where faces come from

A roller answers one die after another from a state; the sources of faces in use
are gathered in one type.
-/
namespace FairDice

/-- A roller with states in `σ`: it answers the face of a die with so many sides, or fails, and in
both cases goes on to its next state. -/
structure Roller (σ : Type) where
  rollDie : UInt32 → EStateM Fault σ UInt32

inductive DieSource where
  /-- The same face for every die. -/
  | fixed (face : UInt32)
  /-- The highest face of each die. -/
  | top
  /-- Prepared faces, each used once. -/
  | faces (rest : List UInt32)
  /-- Prepared faces that start over when they are used up. -/
  | cycle (faces : List UInt32)
  /-- Random words for fair dice. -/
  | words (rest : List UInt32)
  deriving DecidableEq, Repr

namespace DieSource

def rollDie (sides : UInt32) : EStateM Fault DieSource UInt32
  | .fixed face => .ok face (.fixed face)
  | .top => .ok sides .top
  | .faces [] => .error .facesExhausted (.faces [])
  | .faces (face :: rest) => .ok face (.faces rest)
  | .cycle [] => .error .facesExhausted (.cycle [])
  | .cycle (face :: rest) => .ok face (.cycle (rest ++ [face]))
  | .words rest =>
    if sides = 0 then .error .noSides (.words rest)
    else
      match rollWords? sides rest with
      | some (face, rest) => .ok face (.words rest)
      | none => .error .wordsExhausted (.words [])

def roller : Roller DieSource := ⟨rollDie⟩

/-- Whether a prepared face is left; the other sources do not tell. -/
def canRoll? : DieSource → Option Bool
  | .faces rest | .cycle rest => some (!rest.isEmpty)
  | .fixed _ | .top | .words _ => none

end DieSource
end FairDice
