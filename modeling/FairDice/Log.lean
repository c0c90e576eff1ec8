import FairDice.Expression.Terms
import FairDice.Mode

/-!
# The log

It tells what was parsed or rejected, which faces were rolled, and what was kept.
A record holds the values it is about; its text is made from them.
-/
namespace FairDice

inductive Level where
  | trace | debug
  deriving DecidableEq, Repr

def Level.name : Level → String
  | .trace => "TRACE"
  | .debug => "DEBUG"

inductive Record where
  | parsed (input : String) (terms : Nat)
  | rejected (input : String) (rejection : Rejection)
  | rolled (term : String) (faces : List UInt32)
  | evaluated (expression : String) (mode : Mode) (totals : List Int64) (kept : UInt64)
      (total : Int64)
  deriving DecidableEq, Repr

namespace Record

/-- What parsing an input puts into the log. -/
def ofParse (input : String) : Except Rejection Terms → Record
  | .ok terms => .parsed input terms.length
  | .error rejection => .rejected input rejection

def level : Record → Level
  | .parsed .. | .rolled .. => .trace
  | .rejected .. | .evaluated .. => .debug

def message : Record → String
  | .parsed input terms => "parsed " ++ quoted input ++ " into " ++ toString terms ++ " terms"
  | .rejected input rejection =>
    "rejected " ++ quoted input ++ " (" ++ rejection.kind.name ++ "): " ++ rejection.message
  | .rolled term faces =>
    "rolled " ++ term ++ ": " ++ bracketed (faces.map fun face => toString face.toNat)
  | .evaluated expression mode totals kept total =>
    "evaluated " ++ quoted expression ++ " (" ++ mode.name ++ "): totals "
      ++ bracketed (totals.map fun t => toString t.toInt) ++ ", kept #" ++ toString kept.toNat
      ++ " = " ++ toString total.toInt

end Record
end FairDice
