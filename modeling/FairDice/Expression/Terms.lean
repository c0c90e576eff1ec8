import FairDice.Expression.Operand
import FairDice.Limits
import FairDice.Number
import FairDice.Rejection
import FairDice.Term
import FairDice.Text.Blank

/-!
# From the text of an expression to its terms

The rules are checked in a fixed order and the first broken one is the answer:
something is left without the blanks, it has the shape of an expression, it has
few enough operands, and then, operand by operand, the numbers are small enough,
no count or number of sides is zero, and neither the sides nor the dice so far
exceed their limit.
-/
namespace FairDice

namespace Operand

def sign (o : Operand) : Sign := o.sign?.getD .plus

def token (o : Operand) : String := String.ofList o.text

/-- A number of the operand, or the rejection of the operand for it. -/
def number (o : Operand) (digits : List Char) : Except Rejection UInt64 :=
  match readNumber? digits with
  | some value => .ok value
  | none => .error (.invalidNumber o.token o.span)

/-- The dice of an operand with these numbers, and how many dice there are with them, after
`diceBefore` dice in the operands to its left. -/
def diceTerm (limits : Limits) (diceBefore count sides : UInt64) (o : Operand) :
    Except Rejection (Term × UInt64) :=
  if count < 1 ∨ sides < 1 then
    .error (.invalidDiceTerm o.token o.span)
  else
    match (narrow? sides).filter (·.toNat ≤ limits.maxSides) with
    | none => .error (.diceSidesExceedLimit o.token sides.toNat limits.maxSides o.span)
    | some dieSides =>
      let dice := addSaturating diceBefore count
      match (narrow? count).filter fun _ => dice.toNat ≤ limits.maxDice with
      | none => .error (.diceCountExceedsLimit o.token dice.toNat limits.maxDice o.span)
      | some dieCount => .ok (.dice o.sign dieCount dieSides o.token, dice)

/-- The term an operand stands for, and the dice up to and including it. -/
def term (limits : Limits) (diceBefore : UInt64) (o : Operand) :
    Except Rejection (Term × UInt64) := do
  let first ← o.number o.first
  match o.sides? with
  | none => return (.constant o.sign first o.token, diceBefore)
  | some digits => o.diceTerm limits diceBefore first (← o.number digits)

/-- The terms of operands from left to right, up to the first that is rejected. -/
def terms (limits : Limits) (diceBefore : UInt64) : List Operand → Except Rejection (List Term)
  | [] => .ok []
  | o :: rest => do
    let (term, dice) ← o.term limits diceBefore
    return term :: (← terms limits dice rest)

end Operand

namespace Terms

/-- The terms of an expression that holds no blanks. -/
def ofExpression (limits : Limits) (expression : List Char) : Except Rejection Terms := do
  if expression.isEmpty then
    throw .emptyExpression
  match operands expression with
  | .error misfit => throw (.syntaxMismatch misfit.reason misfit.span)
  | .ok operands =>
    if (operands.map Operand.text).flatten ≠ expression then
      throw .tokenReconstructionMismatch
    if limits.maxTerms < operands.length then
      throw (.tooManyTerms operands.length limits.maxTerms)
    return ⟨← Operand.terms limits 0 operands⟩

/-- The terms of an expression; blanks may stand anywhere in it. -/
def parse (limits : Limits) (input : String) : Except Rejection Terms :=
  ofExpression limits (stripBlanks input.toList)

end Terms
end FairDice
