import FairDice.CommandLine.Outcome

/-!
# The command line as a program

Faces come from random words of the system; when they do not suffice, the same
run is done again on the same words and more, which comes to the same as drawing
from an endless row of words.
-/
namespace FairDice.CommandLine

def randomWords (count : Nat) : IO (List UInt32) := do
  let bytes ← IO.getRandomBytes (USize.ofNat (4 * count))
  return (List.range count).map fun i =>
    (List.range 4).foldl (fun word j => word <<< 8 ||| (bytes.get! (4 * i + j)).toUInt32) 0

partial def runRandom (arguments : List String) (input : String) (words : List UInt32) :
    IO Outcome := do
  match (run DieSource.roller arguments input).run ⟨.words words, []⟩ with
  | .ok outcome _ => return outcome
  | .error .wordsExhausted _ =>
    runRandom arguments input (words ++ (← randomWords (words.length + 256)))
  | .error fault _ => throw (IO.userError fault.message)

/-- The first line of standard input, where the arguments leave the expression to it. -/
def readInput (arguments : List String) : IO String := do
  match Request.ofArguments arguments with
  | .evaluate _ [] =>
    let stdin ← IO.getStdin
    if ← stdin.isTty then
      IO.print "Enter dice expression: "
      (← IO.getStdout).flush
    try stdin.getLine catch _ => return ""
  | _ => return ""

end FairDice.CommandLine

def main (arguments : List String) : IO UInt32 := do
  let input ← FairDice.CommandLine.readInput arguments
  let outcome ← FairDice.CommandLine.runRandom arguments input []
  IO.print (FairDice.CommandLine.printed outcome.output)
  IO.eprint (FairDice.CommandLine.printed outcome.errors)
  return outcome.code
