import FairDice.RollSet
import FairDice.Text.Quoted

/-!
# Rolls in words

A description looks like `2d6[3, 5] - 1d4[2] + 3`. Each term is its text without
the sign, followed by its faces between brackets; the signs stand between the
terms. A limit cuts each list of faces, and the number of faces left out follows.
-/
namespace FairDice

def dropOperators (text : String) : String :=
  String.ofList (text.toList.dropWhile isOperator)

namespace TermRoll

def shown (limit : Option Nat) (roll : TermRoll) : List UInt32 :=
  match limit with
  | none => roll.rolls
  | some n => roll.rolls.take n

def hidden (limit : Option Nat) (roll : TermRoll) : Nat :=
  match limit with
  | none => 0
  | some n => roll.rolls.length - n

/-- Every face is either shown or counted as left out. -/
theorem length_shown_add_hidden (limit : Option Nat) (roll : TermRoll) :
    (roll.shown limit).length + roll.hidden limit = roll.rolls.length := by
  cases limit with
  | none => simp [shown, hidden]
  | some n => simp [shown, hidden]; omega

def faceList (limit : Option Nat) (roll : TermRoll) : String :=
  let listed := ", ".intercalate ((roll.shown limit).map fun face => toString face.toNat)
  let hidden := roll.hidden limit
  "[" ++ listed ++ (if hidden = 0 then "" else ", " ++ toString hidden ++ " more...") ++ "]"

/-- The term without its sign and, for dice, the faces up to the limit. -/
def describe (limit : Option Nat) (roll : TermRoll) : String :=
  let term := dropOperators roll.term
  if roll.isConstant then term else term ++ roll.faceList limit

def isNegative (roll : TermRoll) : Bool := roll.term.toList.head? = some '-'

end TermRoll

namespace RollSet

/-- A term behind others: the operator stands between blanks. -/
def describeNext (limit : Option Nat) (roll : TermRoll) : String :=
  (if roll.isNegative then " - " else " + ") ++ roll.describe limit

/-- The terms in words, with the operators between them. -/
def describe (limit : Option Nat) (set : RollSet) : String :=
  match set.terms with
  | [] => ""
  | first :: rest =>
    (if first.isNegative then "-" else "") ++ first.describe limit
      ++ String.join (rest.map (describeNext limit))

instance : ToString RollSet := ⟨describe none⟩

end RollSet
end FairDice
