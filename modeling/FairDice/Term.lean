import FairDice.Sign

/-!
# The terms of an expression

Terms are groups of dice and constants, each with the text it was written as.
-/
namespace FairDice

inductive Term where
  | dice (sign : Sign) (count sides : UInt32) (raw : String)
  | constant (sign : Sign) (value : UInt64) (raw : String)
  deriving DecidableEq, Repr

namespace Term

def sign : Term → Sign
  | .dice sign .. => sign
  | .constant sign .. => sign

/-- The text of the term, with its operator if one was written. -/
def raw : Term → String
  | .dice _ _ _ raw => raw
  | .constant _ _ raw => raw

def diceCount : Term → UInt32
  | .dice _ count _ _ => count
  | .constant .. => 0

/-- Whether every roll of the term comes out the same. -/
def isDeterministic : Term → Bool
  | .dice _ _ sides _ => sides == 1
  | .constant .. => true

end Term

structure Terms where
  toList : List Term
  deriving DecidableEq, Repr

namespace Terms

def length (terms : Terms) : Nat := terms.toList.length

def diceCount (terms : Terms) : UInt32 :=
  terms.toList.foldr (fun term count => term.diceCount + count) 0

def isDeterministic (terms : Terms) : Bool := terms.toList.all Term.isDeterministic

/-- The texts of the terms in a row: the expression without its blanks. -/
def text (terms : Terms) : String := String.join (terms.toList.map Term.raw)

instance : ToString Terms := ⟨text⟩

end Terms
end FairDice
