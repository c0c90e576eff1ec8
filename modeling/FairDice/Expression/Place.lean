import FairDice.Sign
import FairDice.Text.Span

/-!
# The shape of an expression

Operands `N` or `NdM` stand in a row, with an operator in front of each but
perhaps the first. Reading goes from one place to the next, character by
character, and stops at the first character that has no place.
-/
namespace FairDice

/-- What has been read last: nothing, an operator, digits before a `d`, a `d`, or digits behind it. -/
inductive Place where
  | start | operator | first | die | sides
  deriving DecidableEq, Repr

namespace Place

/-- The place after one more character, if the character may stand there. -/
def next : Place → Char → Option Place
  | .start, c =>
    if c.isDigit then some .first else if isOperator c then some .operator else none
  | .operator, c => if c.isDigit then some .first else none
  | .first, c =>
    if c.isDigit then some .first
    else if c = 'd' then some .die
    else if isOperator c then some .operator
    else none
  | .die, c => if c.isDigit then some .sides else none
  | .sides, c =>
    if c.isDigit then some .sides else if isOperator c then some .operator else none

def isEnd : Place → Bool
  | .first | .sides => true
  | .start | .operator | .die => false

/-- What may follow, in the words of an error message. -/
def expected : Place → String
  | .start => "'+', or '-'"
  | .operator | .die => "something else"
  | .first => "'d', '+', '-', or end of input"
  | .sides => "'+', '-', or end of input"

/-- The place after a whole text, if every character of it may stand where it does. -/
def after? (place : Place) (text : List Char) : Option Place := text.foldlM next place

@[simp] theorem after?_nil (p : Place) : p.after? [] = some p := rfl

@[simp] theorem after?_cons (p : Place) (c : Char) (s : List Char) :
    p.after? (c :: s) = (p.next c).bind (·.after? s) := rfl

theorem after?_append (p : Place) (s t : List Char) :
    p.after? (s ++ t) = (p.after? s).bind (·.after? t) :=
  List.foldlM_append ..

end Place

/-- Where reading an expression failed, and the character it failed at, if any was left. -/
structure Misfit where
  place : Place
  found : Option Char
  offset : Nat
  deriving DecidableEq, Repr

namespace Misfit

/-- The bytes of the character, or the empty span at the end of the text. -/
def span (m : Misfit) : Span :=
  ⟨m.offset, m.offset + (m.found.map Char.utf8Size).getD 0⟩

def reason (m : Misfit) : String :=
  "found " ++ (m.found.map String.singleton).getD "end of input" ++ " expected " ++ m.place.expected

end Misfit

namespace Place

/-- The first misfit of a text that is read on from a place, `offset` bytes into the expression. -/
def misfit? (place : Place) (offset : Nat) : List Char → Option Misfit
  | [] => if place.isEnd then none else some ⟨place, none, offset⟩
  | c :: rest =>
    match place.next c with
    | none => some ⟨place, some c, offset⟩
    | some place => place.misfit? (offset + c.utf8Size) rest

/-- There is no misfit exactly when the text can be read through to a place where it may end. -/
theorem misfit?_eq_none_iff (p : Place) (offset : Nat) (s : List Char) :
    p.misfit? offset s = none ↔ (p.after? s).any isEnd := by
  induction s generalizing p offset with
  | nil => cases p <;> simp [misfit?, isEnd]
  | cons c s ih =>
    cases h : p.next c with
    | none => simp [misfit?, h]
    | some q => simp [misfit?, h, ih]

end Place
end FairDice
