import FairDice.Evaluation

/-!
# A session at the table

It has limits, a source of faces, the terms parsed last, and the roll sets and
evaluations so far. A step that fails changes none of what is kept, but faces
that were drawn stay drawn and the log stays written.
-/
namespace FairDice

structure Session where
  limits : Limits := .default
  recorded : Recorded DieSource := ⟨.top, []⟩
  terms? : Option Terms := none
  rollSets : List RollSet := []
  evaluations : List Evaluation := []

namespace Session

inductive Step where
  | limits (settings : List Limits.Setting)
  | resetLimits
  | source (source : DieSource)
  | parse (input : String)
  | roll
  | rollDie (sides : UInt32)
  /-- Without a name the mode is the normal one. -/
  | evaluate (expression : String) (mode? : Option String)
  /-- The terms parsed last, under the name of an expression. -/
  | rollEvaluation (label : String) (mode? : Option String)
  /-- The choice of a mode among all roll sets. -/
  | select (mode : String)
  /-- One roll set of all terms rolled so far. -/
  | merge
  /-- For each roll set and evaluation, the place of the first one equal to it. -/
  | compare

inductive Answer where
  | limits (limits : Limits)
  | limitsReset
  | ready
  | parsed (terms : Terms) (same : Bool)
  | rolled (set : RollSet)
  | face (face : UInt32)
  | evaluated (evaluation : Evaluation)
  | selected (totals : List Int64) (index : Nat)
  | compared (rollSets evaluations : List Nat)

inductive Failure where
  | rejected (rejection : Rejection)
  | unknownMode (error : UnknownMode)
  | fault (fault : Fault)
  | noTerms

end Session

/-- What a step does: it answers or fails, and in both cases leaves a session. -/
abbrev SessionM := EStateM Session.Failure Session

namespace Session

def run {α : Type} (action : Roller DieSource → RollM DieSource α) : SessionM α := fun session =>
  match (action DieSource.roller).run session.recorded with
  | .ok value recorded => .ok value { session with recorded }
  | .error fault recorded => .error (.fault fault) { session with recorded }

def readMode : Option String → SessionM Mode
  | none => return default
  | some name =>
    match Mode.ofName name with
    | .ok mode => return mode
    | .error error => throw (.unknownMode error)

def accept {α : Type} : Except Rejection α → SessionM α
  | .ok value => return value
  | .error rejection => throw (.rejected rejection)

def storedTerms : SessionM Terms := do
  match (← get).terms? with
  | some terms => return terms
  | none => throw .noTerms

def keepRollSet (rollSet : RollSet) : SessionM Unit :=
  modify fun s => { s with rollSets := s.rollSets ++ [rollSet] }

def keepEvaluation (evaluation : Evaluation) : SessionM Unit :=
  modify fun s => { s with evaluations := s.evaluations ++ [evaluation] }

def setLimits (limits : Limits) : SessionM Unit := modify fun s => { s with limits }

def step : Step → SessionM Answer
  | .limits settings => do
    let limits := (← get).limits.setAll settings
    setLimits limits
    return .limits limits
  | .resetLimits => do
    setLimits .default
    return .limitsReset
  | .source source => do
    modify fun s => { s with recorded := { s.recorded with state := source } }
    return .ready
  | .parse input => do
    let session ← get
    let terms ← accept (← run fun _ => parseRecorded session.limits input)
    modify fun s => { s with terms? := some terms }
    return .parsed terms (session.terms? = some terms)
  | .roll => do
    let terms ← storedTerms
    let rollSet ← run (·.roll terms)
    keepRollSet rollSet
    return .rolled rollSet
  | .rollDie sides => return .face (← run (·.face sides))
  | .evaluate expression mode? => do
    let mode ← readMode mode?
    let limits := (← get).limits
    let evaluation ← accept (← run (·.evaluate limits mode expression))
    keepEvaluation evaluation
    return .evaluated evaluation
  | .rollEvaluation label mode? => do
    let terms ← storedTerms
    let mode ← readMode mode?
    let evaluation ← run (·.evaluateTerms label mode terms)
    keepEvaluation evaluation
    return .evaluated evaluation
  | .select name => do
    let mode ← readMode (some name)
    let totals := (← get).rollSets.map RollSet.total
    return .selected totals (mode.select totals)
  | .merge => return .rolled (.ofTerms ((← get).rollSets.flatMap RollSet.terms))
  | .compare => do
    let session ← get
    return .compared (session.rollSets.map (session.rollSets.idxOf ·))
      (session.evaluations.map (session.evaluations.idxOf ·))

end Session
end FairDice
