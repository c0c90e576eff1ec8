import FairDice.Roller.Run

/-!
# Evaluation of an expression in a mode

The roll sets of the expression, as many as the mode asks for, and the one of
them that is kept.
-/
namespace FairDice

structure Evaluation where
  /-- The expression as it was given, blanks included. -/
  expression : String
  mode : Mode
  /-- The roll sets in the order they were rolled. -/
  rollSets : List RollSet
  /-- The place of the kept roll set, counted from zero. -/
  selectedIndex : UInt64
  /-- The total of the kept roll set. -/
  total : Int64
  deriving DecidableEq, Repr

namespace Evaluation

def selected? (e : Evaluation) : Option RollSet := e.rollSets[e.selectedIndex.toNat]?

/-- The evaluation that keeps what the mode selects of the roll sets. -/
def ofRollSets (expression : String) (mode : Mode) (rollSets : List RollSet) : Evaluation :=
  let totals := rollSets.map RollSet.total
  let kept := mode.select totals
  { expression, mode, rollSets
    selectedIndex := UInt64.ofNat kept
    total := totals[kept]?.getD 0 }

def summary (e : Evaluation) : Record :=
  .evaluated e.expression e.mode (e.rollSets.map RollSet.total) e.selectedIndex e.total

end Evaluation

variable {σ : Type}

/-- The terms of an expression, with a record of what came of parsing it. -/
def parseRecorded (limits : Limits) (input : String) : RollM σ (Except Rejection Terms) := do
  let parsed := Terms.parse limits input
  writeLog (.ofParse input parsed)
  return parsed

/-- Reading a text never fails, touches no roller and writes one record. -/
theorem run_parseRecorded (limits : Limits) (input : String) (r : Recorded σ) :
    (parseRecorded limits input).run r =
      .ok (Terms.parse limits input)
        { r with log := r.log ++ [.ofParse input (Terms.parse limits input)] } := rfl

namespace Roller

def rollTimes (roller : Roller σ) (terms : Terms) : Nat → RollM σ (List RollSet)
  | 0 => pure []
  | n + 1 => do
    let set ← roller.roll terms
    return set :: (← roller.rollTimes terms n)

/-- The terms rolled as often as the mode asks for, under the name of an expression. -/
def evaluateTerms (roller : Roller σ) (expression : String) (mode : Mode) (terms : Terms) :
    RollM σ Evaluation := do
  let evaluation := .ofRollSets expression mode (← roller.rollTimes terms mode.rollCount)
  writeLog evaluation.summary
  return evaluation

/-- The expression parsed once and its terms rolled as often as the mode asks for. -/
def evaluate (roller : Roller σ) (limits : Limits) (mode : Mode) (expression : String) :
    RollM σ (Except Rejection Evaluation) := do
  match ← parseRecorded limits expression with
  | .error rejection => return .error rejection
  | .ok terms => return .ok (← roller.evaluateTerms expression mode terms)

end Roller
end FairDice
