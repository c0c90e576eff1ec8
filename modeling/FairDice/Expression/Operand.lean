import FairDice.Expression.Place

/-!
# The operands of an expression, as written

A text that reads through to its end is cut before every operator but a first
one; no numbers are looked at yet.
-/
namespace FairDice

structure Operand where
  /-- The operator in front, if one is written. -/
  sign? : Option Sign
  /-- The digits before the `d`: a count, or the value of a constant. -/
  first : List Char
  /-- The digits after the `d`, if there is one. -/
  sides? : Option (List Char)
  /-- How many bytes of the expression come before this operand. -/
  start : Nat
  deriving DecidableEq, Repr

namespace Operand

def text (o : Operand) : List Char :=
  (o.sign?.map Sign.symbol).toList ++ o.first ++ (o.sides?.map ('d' :: ·)).getD []

def span (o : Operand) : Span := ⟨o.start, o.start + byteLength o.text⟩

/-- The operand that a piece writes, `start` bytes into the expression. -/
def ofPiece (start : Nat) (piece : List Char) : Operand :=
  let sign? := piece.head?.bind Sign.ofOperator?
  let digits := if sign?.isSome then piece.tail else piece
  { sign?
    first := digits.takeWhile Char.isDigit
    sides? :=
      match digits.dropWhile Char.isDigit with
      | 'd' :: sides => some sides
      | _ => none
    start }

/-- The operands written by pieces that follow one another from `start` on. -/
def ofPieces (start : Nat) : List (List Char) → List Operand
  | [] => []
  | piece :: pieces => ofPiece start piece :: ofPieces (start + byteLength piece) pieces

end Operand

/-- The text cut before every operator but a first one. -/
def pieces (expression : List Char) : List (List Char) :=
  expression.splitBy fun _ c => !isOperator c

/-- The operands of an expression, or the first character that does not fit. -/
def operands (expression : List Char) : Except Misfit (List Operand) :=
  match Place.start.misfit? 0 expression with
  | some misfit => .error misfit
  | none => .ok (Operand.ofPieces 0 (pieces expression))

end FairDice
