import FairDice.Audit
import FairDice.CommandLine.Arguments
import FairDice.CommandLine.Outcome
import FairDice.Evaluation
import FairDice.Expression.Operand
import FairDice.Expression.Place
import FairDice.Expression.Terms
import FairDice.Json.Basic
import FairDice.Json.Outline
import FairDice.Json.Reader
import FairDice.Json.Text
import FairDice.Json.Word
import FairDice.Json.Writer
import FairDice.Limits
import FairDice.Log
import FairDice.Main
import FairDice.Mode
import FairDice.Number
import FairDice.Rejection
import FairDice.RollSet
import FairDice.RollSet.Describe
import FairDice.Roller.Fault
import FairDice.Roller.Run
import FairDice.Roller.Source
import FairDice.Roller.Words
import FairDice.Session
import FairDice.Sign
import FairDice.Stored.Evaluation
import FairDice.Stored.Fields
import FairDice.Stored.Limits
import FairDice.Stored.Names
import FairDice.Stored.Terms
import FairDice.Term
import FairDice.Text.Blank
import FairDice.Text.Quoted
import FairDice.Text.Span
import FairDice.Proofs.Grammar
import FairDice.Proofs.Reading
import FairDice.Proofs.Cutting
import FairDice.Proofs.Descent
import FairDice.Proofs.Tiling
import FairDice.Proofs.Numbers
import FairDice.Proofs.Rules
import FairDice.Proofs.Checking
import FairDice.Proofs.Blanks
import FairDice.Proofs.Parsing
import FairDice.Proofs.Bounds
import FairDice.Proofs.Draws
import FairDice.Proofs.Evaluating
import FairDice.Proofs.Viable
import FairDice.Proofs.Reporters
import FairDice.Proofs.Misfits
import FairDice.Proofs.Rolling
import FairDice.Proofs.Calls
import FairDice.Proofs.Uniformity
import FairDice.Proofs.Fairness
import FairDice.Proofs.Noting
import FairDice.Proofs.Exactness
import FairDice.Proofs.Showing
import FairDice.Proofs.Spelling
import FairDice.Proofs.Quoting
import FairDice.Proofs.Rereading
import FairDice.Proofs.Storing
import FairDice.Proofs.Tightening
import FairDice.Proofs.Describing
import FairDice.Proofs.Retelling
import FairDice.Proofs.Doubles
import FairDice.Proofs.Joining
import FairDice.Proofs.Logging
import FairDice.Proofs.Printing
import FairDice.Proofs.Passes
import FairDice.Proofs.Outcomes
import FairDice.Proofs.Listing
import FairDice.Proofs.Flipping
import FairDice.Proofs.Opposites
import FairDice.Proofs.Numerals
import FairDice.Proofs.Auditing
import FairDice.Proofs.Sessions
