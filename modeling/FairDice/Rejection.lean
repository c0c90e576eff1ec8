import FairDice.Text.Quoted
import FairDice.Text.Span

/-!
# Why an expression is rejected

A rejection is the first rule that the expression breaks, with the place and the
numbers that broke it. Spans are byte places in the expression without its
blanks.
-/
namespace FairDice

inductive Rejection where
  /-- Nothing is left without the blanks. -/
  | emptyExpression
  | syntaxMismatch (reason : String) (span : Span)
  /-- The operands in a row are not the expression. -/
  | tokenReconstructionMismatch
  | tooManyTerms (count max : Nat)
  | invalidNumber (token : String) (span : Span)
  /-- No dice at all, or dice without sides. -/
  | invalidDiceTerm (token : String) (span : Span)
  | diceSidesExceedLimit (token : String) (sides max : Nat) (span : Span)
  /-- The dice up to and including this operand are more than the limit. -/
  | diceCountExceedsLimit (token : String) (total max : Nat) (span : Span)
  deriving DecidableEq, Repr

namespace Rejection

inductive Kind where
  | emptyExpression
  | syntaxMismatch
  | tokenReconstructionMismatch
  | tooManyTerms
  | invalidNumber
  | invalidDiceTerm
  | diceSidesExceedLimit
  | diceCountExceedsLimit
  deriving DecidableEq, Repr

namespace Kind

/-- The fixed name of a kind, for programs that tell rejections apart. -/
def name : Kind → String
  | .emptyExpression => "EMPTY_EXPRESSION"
  | .syntaxMismatch => "SYNTAX_MISMATCH"
  | .tokenReconstructionMismatch => "TOKEN_RECONSTRUCTION_MISMATCH"
  | .tooManyTerms => "TOO_MANY_TERMS"
  | .invalidNumber => "INVALID_NUMBER"
  | .invalidDiceTerm => "INVALID_DICE_TERM"
  | .diceSidesExceedLimit => "DICE_SIDES_EXCEED_LIMIT"
  | .diceCountExceedsLimit => "DICE_COUNT_EXCEEDS_LIMIT"

def all : List Kind :=
  [.emptyExpression, .syntaxMismatch, .tokenReconstructionMismatch, .tooManyTerms, .invalidNumber,
    .invalidDiceTerm, .diceSidesExceedLimit, .diceCountExceedsLimit]

theorem mem_all (k : Kind) : k ∈ all := by cases k <;> decide

def ofName? (name : String) : Option Kind := all.find? (·.name = name)

/-- The names of the kinds are told apart. -/
@[simp] theorem ofName?_name (k : Kind) : ofName? k.name = some k := by cases k <;> decide

end Kind

def kind : Rejection → Kind
  | .emptyExpression => .emptyExpression
  | .syntaxMismatch .. => .syntaxMismatch
  | .tokenReconstructionMismatch => .tokenReconstructionMismatch
  | .tooManyTerms .. => .tooManyTerms
  | .invalidNumber .. => .invalidNumber
  | .invalidDiceTerm .. => .invalidDiceTerm
  | .diceSidesExceedLimit .. => .diceSidesExceedLimit
  | .diceCountExceedsLimit .. => .diceCountExceedsLimit

def span? : Rejection → Option Span
  | .emptyExpression | .tokenReconstructionMismatch | .tooManyTerms .. => none
  | .syntaxMismatch _ span | .invalidNumber _ span | .invalidDiceTerm _ span
  | .diceSidesExceedLimit _ _ _ span | .diceCountExceedsLimit _ _ _ span => some span

/-- The operand at fault, if a single one is. -/
def token? : Rejection → Option String
  | .emptyExpression | .syntaxMismatch .. | .tokenReconstructionMismatch | .tooManyTerms .. => none
  | .invalidNumber token _ | .invalidDiceTerm token _ | .diceSidesExceedLimit token ..
  | .diceCountExceedsLimit token .. => some token

def overMax (n max : Nat) : String :=
  "(" ++ toString n ++ ", max " ++ toString max ++ ")"

def message : Rejection → String
  | .emptyExpression => "expression is empty"
  | .syntaxMismatch reason _ => "syntax does not match NdM format: " ++ reason
  | .tokenReconstructionMismatch => "unsupported token format"
  | .tooManyTerms count max => "too many terms " ++ overMax count max
  | .invalidNumber token _ => "invalid number in term " ++ quoted token
  | .invalidDiceTerm token _ =>
    "invalid dice term " ++ quoted token ++ ": count and sides must be at least 1"
  | .diceSidesExceedLimit token sides max _ =>
    "dice sides exceed limit in " ++ quoted token ++ " " ++ overMax sides max
  | .diceCountExceedsLimit token total max _ =>
    "dice count exceeds limit at " ++ quoted token ++ " " ++ overMax total max

def code : String := "INVALID_EXPRESSION"

/-- What a service reports beside the message. -/
structure Details where
  field : String
  kind : Kind
  token? : Option String
  span? : Option Span
  deriving DecidableEq, Repr

def details (r : Rejection) : Details := ⟨"expression", r.kind, r.token?, r.span?⟩

end Rejection
end FairDice
