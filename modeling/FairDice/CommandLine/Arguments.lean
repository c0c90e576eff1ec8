import FairDice.Mode

/-!
# The arguments of the command line

Options come first; the first word that is none starts the expression, and all
words from there on belong to it, whatever they look like.
-/
namespace FairDice.CommandLine

inductive Request where
  /-- An expression to evaluate; without words it is read from the input. -/
  | evaluate (mode : Mode) (words : List String)
  | version
  | help
  | misuse (reason : String)
  deriving DecidableEq, Repr

inductive Flag where
  | advantage | disadvantage | mode | help | version
  deriving DecidableEq, Repr

def Flag.ofLetter? : Char → Option Flag
  | 'a' => some .advantage
  | 'd' => some .disadvantage
  | 'm' => some .mode
  | 'h' => some .help
  | 'V' => some .version
  | _ => none

def Flag.ofName? : String → Option Flag
  | "advantage" => some .advantage
  | "disadvantage" => some .disadvantage
  | "mode" => some .mode
  | "help" => some .help
  | "version" => some .version
  | _ => none

inductive Word where
  /-- The argument `--`. -/
  | endOfOptions
  /-- The name of an option behind two hyphens, perhaps with `=` and a value. -/
  | long (flag : Flag) (value? : Option String)
  /-- Letters behind one hyphen, each of which names an option. -/
  | short (letters : List Char)
  | plain (text : String)
  deriving DecidableEq, Repr

/-- An argument that names no option is plain, also one that starts with a hyphen. -/
def Word.ofArgument (argument : String) : Word :=
  match argument.toList with
  | ['-', '-'] => .endOfOptions
  | '-' :: '-' :: rest =>
    let name := rest.takeWhile (· ≠ '=')
    let value? := (rest.dropWhile (· ≠ '=')).tail? |>.map String.ofList
    match Flag.ofName? (String.ofList name) with
    | some flag => .long flag value?
    | none => .plain argument
  | '-' :: c :: rest =>
    if (c :: rest).all (Flag.ofLetter? · |>.isSome) then .short (c :: rest) else .plain argument
  | _ => .plain argument

structure Options where
  advantage : Bool := false
  disadvantage : Bool := false
  mode? : Option Mode := none
  /-- The last argument asked for a mode, so the name of one comes next. -/
  awaitsMode : Bool := false
  deriving DecidableEq, Repr

namespace Options

/-- A request that is settled before all arguments are read. -/
abbrev Reading := Except Request

def setMode (options : Options) (name : String) : Reading Options :=
  match options.mode?, Mode.ofName name with
  | some _, _ => throw (.misuse "the mode is given twice")
  | none, .ok mode => return { options with mode? := some mode, awaitsMode := false }
  | none, .error error => throw (.misuse error.message)

/-- No option, and no end of the options, may stand where the name of a mode is awaited. -/
def settle (options : Options) : Reading Unit :=
  if options.awaitsMode then throw (.misuse "the mode is missing") else return

def setFlag (options : Options) : Flag → Reading Options
  | .advantage =>
    if options.advantage then throw (.misuse "advantage is given twice")
    else return { options with advantage := true }
  | .disadvantage =>
    if options.disadvantage then throw (.misuse "disadvantage is given twice")
    else return { options with disadvantage := true }
  | .mode => return { options with awaitsMode := true }
  | .help => throw .help
  | .version => throw .version

/-- The letters of a short argument; what stands behind an `m` is the name of the mode. -/
def setLetters (options : Options) : List Char → Reading Options
  | [] => return options
  | c :: rest =>
    match Flag.ofLetter? c with
    | none => return options
    | some .mode =>
      if rest.isEmpty then options.setFlag .mode else options.setMode (String.ofList rest)
    | some flag => do (← options.setFlag flag).setLetters rest

def setLong (options : Options) (flag : Flag) : Option String → Reading Options
  | none => options.setFlag flag
  | some value =>
    if flag = .mode then options.setMode value
    else throw (.misuse "the option takes no value")

/-- All options, and the words of the expression behind them. -/
def read (options : Options) : List String → Reading (Options × List String)
  | [] => do
    options.settle
    return (options, [])
  | argument :: rest =>
    match Word.ofArgument argument with
    | .endOfOptions => do
      options.settle
      return (options, rest)
    | .long flag value? => do
      options.settle
      (← options.setLong flag value?).read rest
    | .short letters => do
      options.settle
      (← options.setLetters letters).read rest
    | .plain text => do
      if options.awaitsMode then (← options.setMode text).read rest
      else return (options, argument :: rest)

/-- At most one of the options that choose the mode may be given. -/
def mode (options : Options) : Reading Mode :=
  match options.advantage, options.disadvantage, options.mode? with
  | false, false, mode? => return mode?.getD .normal
  | true, false, none => return .advantage
  | false, true, none => return .disadvantage
  | _, _, _ => throw (.misuse "two options choose the mode")

end Options

def Request.ofArguments (arguments : List String) : Request :=
  let reading : Except Request Request := do
    let (options, words) ← Options.read {} arguments
    return .evaluate (← options.mode) words
  match reading with
  | .ok request | .error request => request

end FairDice.CommandLine
