import FairDice.Term

/-!
# What came of rolling an expression once

For each term there are its faces and its signed total, and then the grand total.
Totals are 64-bit signed words.
-/
namespace FairDice

structure TermRoll where
  /-- The text of the term. -/
  term : String
  /-- The faces in the order they were rolled; none for a constant. -/
  rolls : List UInt32
  total : Int64
  deriving DecidableEq, Repr

def faceSum (faces : List UInt32) : Int64 := (faces.map (·.toUInt64.toInt64)).sum

namespace TermRoll

def isConstant (roll : TermRoll) : Bool := roll.rolls.isEmpty

def ofConstant (sign : Sign) (value : UInt64) (raw : String) : TermRoll :=
  ⟨raw, [], sign.apply value.toInt64⟩

def ofFaces (sign : Sign) (faces : List UInt32) (raw : String) : TermRoll :=
  ⟨raw, faces, sign.apply (faceSum faces)⟩

end TermRoll

/-- What came of all terms, from left to right. -/
structure RollSet where
  terms : List TermRoll
  total : Int64
  deriving DecidableEq, Repr

def RollSet.ofTerms (terms : List TermRoll) : RollSet :=
  ⟨terms, (terms.map TermRoll.total).sum⟩

end FairDice
