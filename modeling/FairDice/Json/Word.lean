import FairDice.Json.Basic
import FairDice.Number

/-!
# JSON values without quotes and brackets

These are `null`, `true`, `false` and the numbers.
-/
namespace FairDice.Json

def isDigits (text : List Char) : Bool := !text.isEmpty && text.all Char.isDigit

/-- What may stand behind the whole part of a number, `.5`, `e-3` or `.5E+3`. -/
def isFractionOrExponent (text : List Char) : Bool :=
  match text with
  | '.' :: rest =>
    let exponent := rest.dropWhile Char.isDigit
    isDigits (rest.takeWhile Char.isDigit) && (exponent.isEmpty || isExponent exponent)
  | _ => isExponent text
where
  /-- An `e` or `E`, perhaps a sign, and digits. -/
  isExponent : List Char → Bool
    | e :: rest =>
      (e = 'e' || e = 'E') &&
        match rest with
        | '+' :: digits | '-' :: digits => isDigits digits
        | digits => isDigits digits
    | [] => false

/-- The whole part of a number: digits, of which a zero comes first only alone. -/
def isWhole (digits : List Char) : Bool :=
  isDigits digits && (digits.head? != some '0' || digits.length == 1)

def number? (text : List Char) : Option Json :=
  let isNegative := text.head? = some '-'
  let unsigned := if isNegative then text.tail else text
  let whole := unsigned.takeWhile Char.isDigit
  let tail := unsigned.dropWhile Char.isDigit
  let value := decimalValue whole
  if !isWhole whole then none
  else if tail.isEmpty && !(isNegative && value = 0) then
    some (.int (if isNegative then -value else value))
  else if tail.isEmpty || isFractionOrExponent tail then some (.decimal (String.ofList text))
  else none

def ofWord? (text : List Char) : Option Json :=
  if text = "null".toList then some .null
  else if text = "true".toList then some (.bool true)
  else if text = "false".toList then some (.bool false)
  else number? text

end FairDice.Json
