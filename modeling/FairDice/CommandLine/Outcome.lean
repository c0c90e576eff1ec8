import FairDice.CommandLine.Arguments
import FairDice.Evaluation
import FairDice.RollSet.Describe

/-!
# What the command line prints

An evaluation goes to standard output, an error to standard error, and the exit
code tells them apart.
-/
namespace FairDice.CommandLine

structure Outcome where
  code : UInt32
  output : List String := []
  errors : List String := []
  deriving DecidableEq, Repr

def printed (lines : List String) : String := String.join (lines.map (· ++ "\n"))

def listLimit : Nat := 20

def setLine (e : Evaluation) (index : Nat) (set : RollSet) : String :=
  (if index = e.selectedIndex.toNat then "*" else " ") ++ " #" ++ toString index ++ ": "
    ++ set.describe (some listLimit) ++ " = " ++ toString set.total.toInt

def evaluationLines (e : Evaluation) : List String :=
  ("Expression: " ++ e.expression ++ " (" ++ e.mode.name ++ ")")
    :: e.rollSets.mapIdx (setLine e) ++ ["Total: " ++ toString e.total.toInt]

/-- What is shown below the heading of a rejection with a place in the expression: lines for the
expression without its blanks, the place and the message. -/
abbrev Drawing := List Char → Span → String → List String

/-- The expression with the place marked below it, and the message. -/
def markedBelow : Drawing := fun stripped span message =>
  let before := charactersIn span.start stripped
  let marked := charactersIn span.stop stripped - before
  [String.ofList stripped,
    String.ofList (List.replicate before ' ' ++ List.replicate (max marked 1) '^'), message]

section

variable (drawing : Drawing)

/-- The lines of a rejection: one line, or a heading and the drawing below it. -/
def rejectionLines (expression : String) (rejection : Rejection) : List String :=
  match rejection.span? with
  | none => [rejection.kind.name ++ ": " ++ rejection.message]
  | some span =>
    ("[" ++ rejection.kind.name ++ "] Error: " ++ Rejection.code)
      :: drawing (stripBlanks expression.toList) span rejection.message

def ofEvaluation (expression : String) : Except Rejection Evaluation → Outcome
  | .ok evaluation => ⟨0, evaluationLines evaluation, []⟩
  | .error rejection => ⟨1, [], rejectionLines drawing expression rejection⟩

end

/-- The first line of an input without its line ending; an empty input has none. -/
def firstLine? (input : String) : Option String :=
  let line := input.toList.takeWhile (· ≠ '\n')
  if input.isEmpty then none
  else if line.length < input.length ∧ line.getLast? = some '\r' then
    some (String.ofList line.dropLast)
  else some (String.ofList line)

/-- The words with a blank between them or, where there are none, the first line of the input. -/
def expression? (words : List String) (input : String) : Option String :=
  if words.isEmpty then firstLine? input else some (" ".intercalate words)

def usage : List String :=
  ["Usage: fairroll [OPTIONS] [EXPRESSION]...", "",
    "Rolls a dice expression like 2d6 + 1d4 + 3; without one, reads it from the input.", "",
    "Options:", "  -a, --advantage     Roll twice and keep the higher total",
    "  -d, --disadvantage  Roll twice and keep the lower total",
    "  -m, --mode <MODE>   Roll mode by name (normal, advantage or disadvantage)",
    "  -h, --help          Print help", "  -V, --version       Print version"]

variable {σ : Type}

def evaluateWords (drawing : Drawing) (roller : Roller σ) (mode : Mode) (words : List String)
    (input : String) : RollM σ Outcome := do
  match expression? words input with
  | none => return ⟨1, [], ["No expression given"]⟩
  | some expression =>
    return ofEvaluation drawing expression (← roller.evaluate .default mode expression)

/-- The command line with a drawing of its own for rejections. -/
def runDrawing (drawing : Drawing) (roller : Roller σ) (arguments : List String)
    (input : String) : RollM σ Outcome :=
  match Request.ofArguments arguments with
  | .evaluate mode words => evaluateWords drawing roller mode words input
  | .version => return ⟨0, ["fairroll 0.1.0"], []⟩
  | .help => return ⟨0, usage, []⟩
  | .misuse reason => return ⟨2, [], ("error: " ++ reason) :: "" :: usage.take 1⟩

def run (roller : Roller σ) (arguments : List String) (input : String) : RollM σ Outcome :=
  runDrawing markedBelow roller arguments input

end FairDice.CommandLine
