import FairDice.CommandLine.Outcome
import FairDice.Proofs.Rolling
import FairDice.Proofs.Evaluating
import FairDice.Proofs.Spelling

/-!
# The printed outcome of a command line

Whatever way the mode is chosen and the expression is given, the command line
prints what the evaluation of that expression in that mode comes to, with the
kept set of rolls marked, or what is wrong with the expression.
-/
namespace FairDice.CommandLine

namespace Options

/-- No two of the options that choose the mode are given. -/
structure IsSingle (options : Options) : Prop where
  flags : ¬(options.advantage = true ∧ options.disadvantage = true)
  advantage : options.advantage = true → options.mode? = none
  disadvantage : options.disadvantage = true → options.mode? = none

/-- The mode that the options choose, and the normal one if none does. -/
def chosen (options : Options) : Mode :=
  if options.advantage then .advantage
  else if options.disadvantage then .disadvantage
  else options.mode?.getD .normal

/-- A mode that is asked for once is the one that is used. -/
theorem IsSingle.mode_eq {options : Options} (h : options.IsSingle) :
    options.mode = .ok options.chosen := by
  obtain ⟨advantage, disadvantage, mode?, awaitsMode⟩ := options
  obtain ⟨hflags, hadvantage, hdisadvantage⟩ := h
  cases advantage <;> cases disadvantage <;> cases mode? <;> simp_all [mode, chosen] <;> rfl

end Options

theorem ofArguments_eq {arguments words : List String} {options : Options}
    (hread : Options.read {} arguments = .ok (options, words)) (hsingle : options.IsSingle) :
    Request.ofArguments arguments = .evaluate options.chosen words := by
  simp only [Request.ofArguments, hread]
  simp only [bind, Except.bind, hsingle.mode_eq]
  rfl

/-- The first line of a text, without its ending; a last line may have none, but is not empty. -/
inductive FirstLine : List Char → List Char → Prop
  | newline {line rest : List Char} :
    '\n' ∉ line → line.getLast? ≠ some '\r' → FirstLine (line ++ '\n' :: rest) line
  | returnNewline {line rest : List Char} :
    '\n' ∉ line → FirstLine (line ++ '\r' :: '\n' :: rest) line
  | unended {line : List Char} : line ≠ [] → '\n' ∉ line → FirstLine line line

theorem firstLine?_of_newline {input : String} {front rest : List Char}
    (h : input.toList = front ++ '\n' :: rest) (hfront : '\n' ∉ front) :
    firstLine? input = some (String.ofList
      (if front.getLast? = some '\r' then front.dropLast else front)) := by
  have hempty : input.isEmpty = false := by
    rw [← Bool.not_eq_true, String.isEmpty_iff, ← String.toList_eq_nil_iff, h]
    simp
  have htake : input.toList.takeWhile (· ≠ '\n') = front := by
    rw [h, List.takeWhile_append_of_pos, List.takeWhile_cons_of_neg, List.append_nil]
    · simp
    · intro c hc
      simpa using ne_of_mem_of_not_mem hc hfront
  have hlength : front.length < input.length := by
    rw [← String.length_toList, h, List.length_append, List.length_cons]
    omega
  rw [firstLine?, htake, hempty]
  by_cases hlast : front.getLast? = some '\r'
  · simp [hlast, hlength]
  · simp [hlast]

theorem firstLine?_of_unended {input : String} (h : '\n' ∉ input.toList) (hne : input ≠ "") :
    firstLine? input = some input := by
  have htake : input.toList.takeWhile (· ≠ '\n') = input.toList := by
    rw [List.takeWhile_eq_self_iff]
    intro c hc
    simpa using ne_of_mem_of_not_mem hc h
  rw [firstLine?, htake]
  simp [String.isEmpty_iff, hne, String.length_toList]

/-- The line that is read is the first one, without its end. -/
theorem firstLine?_eq_some_iff {input line : String} :
    firstLine? input = some line ↔ FirstLine input.toList line.toList := by
  constructor
  · intro h
    have hne : input ≠ "" := by
      rintro rfl
      cases h
    by_cases hnone : '\n' ∈ input.toList
    · obtain ⟨front, rest, hsplit, hfront⟩ := List.eq_append_cons_of_mem hnone
      rw [firstLine?_of_newline hsplit hfront] at h
      obtain rfl := Option.some.inj h
      rw [String.toList_ofList, hsplit]
      split
      · next hlast =>
        obtain ⟨line, rfl⟩ := List.getLast?_eq_some_iff.mp hlast
        rw [List.dropLast_concat, List.append_assoc]
        exact .returnNewline fun hmem => hfront (List.mem_append_left _ hmem)
      · next hlast => exact .newline hfront hlast
    · rw [firstLine?_of_unended hnone hne] at h
      obtain rfl := Option.some.inj h
      exact .unended (by rwa [ne_eq, String.toList_eq_nil_iff]) hnone
  · intro h
    have hline : String.ofList line.toList = line := String.ofList_toList
    generalize hs : input.toList = s at h
    generalize line.toList = l at h hline
    subst hline
    cases h with
    | newline hnone hlast =>
      rw [firstLine?_of_newline hs hnone, if_neg hlast]
    | @returnNewline _ rest hnone =>
      have hsplit : input.toList = (l ++ ['\r']) ++ '\n' :: rest := by
        rw [hs, List.append_assoc]
        rfl
      rw [firstLine?_of_newline hsplit (by simpa using hnone)]
      simp
    | unended hne hnone =>
      have hne' : input ≠ "" := by rwa [ne_eq, ← String.toList_eq_nil_iff, hs]
      rw [← hs, String.ofList_toList]
      exact firstLine?_of_unended (hs ▸ hnone) hne'

theorem firstLine?_eq_none_iff {input : String} : firstLine? input = none ↔ input = "" := by
  rw [firstLine?]
  by_cases h : input = ""
  · simp [h]
  · simp only [String.isEmpty_iff, h, if_false, iff_false]
    split <;> simp

/-- The text of the expression: the words with blanks between them, and without words the first
line of the input. -/
inductive IsText : List String → String → String → Prop
  | words {words : List String} {input : String} :
    words ≠ [] → IsText words input (" ".intercalate words)
  | line {input text : String} : FirstLine input.toList text.toList → IsText [] input text

/-- The expression is the words joined by spaces, or the first line when there are none. -/
theorem expression?_eq_some_iff {words : List String} {input text : String} :
    expression? words input = some text ↔ IsText words input text := by
  rw [expression?]
  cases words with
  | nil =>
    rw [List.isEmpty_nil, if_pos rfl, firstLine?_eq_some_iff]
    exact ⟨.line, fun h => by cases h <;> trivial⟩
  | cons word words =>
    rw [List.isEmpty_cons, if_neg Bool.false_ne_true, Option.some.injEq]
    constructor
    · rintro rfl
      exact .words (List.cons_ne_nil word words)
    · rintro ⟨-⟩
      rfl

theorem expression?_eq_none_iff {words : List String} {input : String} :
    expression? words input = none ↔ words = [] ∧ input = "" := by
  cases words with
  | nil => simpa [expression?] using firstLine?_eq_none_iff
  | cons word words => simp [expression?]

def setText (marker : String) (index : Nat) (set : RollSet) : String :=
  marker ++ " #" ++ toString index ++ ": " ++ set.describe (some 20) ++ " = " ++
    toString set.total.toInt

/-- The lines of an evaluation, each of them printed with its end: only the kept set of rolls is
marked, and the total is its total. -/
structure Outcome.PrintsEvaluation (outcome : Outcome) (text : String) (mode : Mode)
    (e : Evaluation) : Prop where
  code_eq : outcome.code = 0
  errors_eq : outcome.errors = []
  output_eq : ∃ front kept back, e.rollSets = front ++ kept :: back ∧
    front.length = e.selectedIndex.toNat ∧
    outcome.output = ("Expression: " ++ text ++ " (" ++ mode.name ++ ")") ::
      front.mapIdx (setText " ") ++ setText "*" front.length kept ::
        back.mapIdx (fun i => setText " " (front.length + 1 + i)) ++
      ["Total: " ++ toString kept.total.toInt]

def heading (rejection : Rejection) : String :=
  if rejection.span?.isSome then "[" ++ rejection.kind.name ++ "] Error: " ++ "INVALID_EXPRESSION"
  else rejection.kind.name ++ ": " ++ rejection.message

structure Outcome.PrintsRejection (outcome : Outcome) (rejection : Rejection) : Prop where
  code_eq : outcome.code = 1
  output_eq : outcome.output = []
  first_line : FirstLine (printed outcome.errors).toList (heading rejection).toList

def isOneLine (text : String) : Bool := text.toList.all fun c => c ≠ '\n' && c ≠ '\r'

theorem isOneLine_append (s t : String) : isOneLine (s ++ t) = (isOneLine s && isOneLine t) := by
  rw [isOneLine, String.toList_append, List.all_append]
  rfl

theorem isOneLine_toString (n : Nat) : isOneLine (toString n) := by
  rw [isOneLine, toList_toString_nat, List.all_eq_true]
  intro c hc
  have hdigit := isDigit_of_mem_toDigits hc
  have hne : ∀ d : Char, d.isDigit = false → c ≠ d := by
    rintro d hd rfl
    rw [hd] at hdigit
    cases hdigit
  simp [hne '\n' (by decide), hne '\r' (by decide)]

theorem isOneLine_name (kind : Rejection.Kind) : isOneLine kind.name := by
  cases kind <;> decide

theorem isOneLine_overMax (n max : Nat) : isOneLine (Rejection.overMax n max) := by
  simp only [Rejection.overMax, isOneLine_append, isOneLine_toString]
  rfl

theorem isOneLine_message {rejection : Rejection} (h : rejection.span? = none) :
    isOneLine rejection.message := by
  cases rejection with
  | emptyExpression => decide
  | tokenReconstructionMismatch => decide
  | tooManyTerms count max =>
    have hmessage : (Rejection.tooManyTerms count max).message =
        "too many terms " ++ Rejection.overMax count max := rfl
    rw [hmessage, isOneLine_append, isOneLine_overMax]
    rfl
  | _ => cases h

/-- The heading of every rejection is a single line. -/
theorem isOneLine_heading (rejection : Rejection) : isOneLine (heading rejection) := by
  have hname := isOneLine_name rejection.kind
  rw [heading]
  split
  · simp only [isOneLine_append, hname]
    decide
  · next hspan =>
    have hmessage := isOneLine_message (Option.not_isSome_iff_eq_none.mp hspan)
    simp only [isOneLine_append, hname, hmessage]
    decide

/-- A text of one line is the first one printed. -/
theorem firstLine_printed {text : String} (h : isOneLine text) (others : List String) :
    FirstLine (printed (text :: others)).toList text.toList := by
  have hprinted : (printed (text :: others)).toList =
      text.toList ++ '\n' :: (printed others).toList := by
    simp [printed, String.toList_join]
  rw [isOneLine, List.all_eq_true] at h
  rw [hprinted]
  refine .newline (fun hmem => ?_) fun hlast => ?_
  · simpa using h _ hmem
  · simpa using h _ (List.mem_of_getLast? hlast)

/-- A rejection is printed under its heading, whatever is drawn below it. -/
theorem printsRejection (drawing : Drawing) (text : String) (rejection : Rejection) :
    (ofEvaluation drawing text (.error rejection)).PrintsRejection rejection := by
  refine ⟨rfl, rfl, ?_⟩
  have hline := isOneLine_heading rejection
  have herrors : ∃ others, rejectionLines drawing text rejection = heading rejection :: others := by
    rw [rejectionLines, heading]
    cases rejection.span? with
    | none => exact ⟨[], rfl⟩
    | some span => exact ⟨_, rfl⟩
  obtain ⟨others, herrors⟩ := herrors
  rw [ofEvaluation, herrors]
  exact firstLine_printed hline others

/-- The kept set of rolls stands behind those that come before its place. -/
theorem exists_split_of_selected? {e : Evaluation} {kept : RollSet} (h : e.selected? = some kept) :
    ∃ front back, e.rollSets = front ++ kept :: back ∧ front.length = e.selectedIndex.toNat := by
  rw [Evaluation.selected?] at h
  obtain ⟨hlt, rfl⟩ := List.getElem?_eq_some_iff.mp h
  refine ⟨e.rollSets.take e.selectedIndex.toNat, e.rollSets.drop (e.selectedIndex.toNat + 1), ?_, ?_⟩
  · rw [List.cons_getElem_drop_succ, List.take_append_drop]
  · rw [List.length_take]
    omega

theorem setLine_eq (e : Evaluation) (index : Nat) (set : RollSet) :
    setLine e index set =
      setText (if index = e.selectedIndex.toNat then "*" else " ") index set := rfl

/-- An evaluation is printed with its line for every set and the kept one marked. -/
theorem printsEvaluation (drawing : Drawing) {text : String} {mode : Mode} {e : Evaluation}
    (htext : e.expression = text) (hmode : e.mode = mode)
    (hselected : ∃ set, e.selected? = some set ∧ set.total = e.total) :
    (ofEvaluation drawing text (.ok e)).PrintsEvaluation text mode e := by
  obtain ⟨kept, hkept, htotal⟩ := hselected
  obtain ⟨front, back, hsets, hlength⟩ := exists_split_of_selected? hkept
  have hfront : front.mapIdx (setLine e) = front.mapIdx (setText " ") := by
    rw [List.mapIdx_eq_mapIdx_iff]
    intro i hi
    rw [setLine_eq, if_neg (by omega)]
  have hkeptLine : setLine e (0 + front.length) kept = setText "*" front.length kept := by
    rw [setLine_eq, Nat.zero_add, if_pos hlength]
  have hback : back.mapIdx (fun i => setLine e (i + 1 + front.length)) =
      back.mapIdx (fun i => setText " " (front.length + 1 + i)) := by
    rw [List.mapIdx_eq_mapIdx_iff]
    intro i hi
    rw [setLine_eq, if_neg (by omega), Nat.add_assoc, Nat.add_comm i, Nat.add_comm 1]
  refine ⟨rfl, rfl, front, kept, back, hsets, hlength, ?_⟩
  rw [ofEvaluation, evaluationLines, hsets, List.mapIdx_append, List.mapIdx_cons, hfront, hkeptLine,
    hback, htext, hmode, htotal]
  simp

variable {σ : Type}

/-- A run of the command line does what the library does with a text in a mode, from the same state,
and prints what comes of it. -/
structure Agrees (roller : Roller σ) (mode : Mode) (text : String) (x : RollM σ Outcome) :
    Prop where
  accepted : ∀ r e r', (roller.evaluate .default mode text).run r = .ok (.ok e) r' →
    ∃ outcome, x.run r = .ok outcome r' ∧ outcome.PrintsEvaluation text mode e
  rejected : ∀ r rejection r',
    (roller.evaluate .default mode text).run r = .ok (.error rejection) r' →
      ∃ outcome, x.run r = .ok outcome r' ∧ outcome.PrintsRejection rejection
  failed : ∀ r fault r', (roller.evaluate .default mode text).run r = .error fault r' →
    x.run r = .error fault r'
  code_eq_zero_iff : ∀ r outcome r', x.run r = .ok outcome r' →
    (outcome.code = 0 ↔ ∃ terms, Terms.parse .default text = .ok terms)
  answers : roller.AnswersDice → Answers x

/-- An outcome is printed for what the library answers, and only for that. -/
theorem agrees_ofEvaluation (drawing : Drawing) (roller : Roller σ) (mode : Mode) (text : String) :
    Agrees roller mode text
      (ofEvaluation drawing text <$> roller.evaluate .default mode text) where
  accepted r e r' h := by
    obtain ⟨terms, -, hevaluates⟩ := Roller.evaluates_of_run_evaluate h
    exact ⟨_, run_map_eq_ok_iff.mpr ⟨_, h, rfl⟩,
      printsEvaluation drawing hevaluates.expression_eq hevaluates.mode_eq hevaluates.selected⟩
  rejected r rejection r' h :=
    ⟨_, run_map_eq_ok_iff.mpr ⟨_, h, rfl⟩, printsRejection drawing text rejection⟩
  failed r fault r' h := run_map_eq_error_iff.mpr h
  code_eq_zero_iff r outcome r' h := by
    obtain ⟨result, hrun, rfl⟩ := run_map_eq_ok_iff.mp h
    cases result with
    | ok e =>
      obtain ⟨terms, hparse, -⟩ := Roller.evaluates_of_run_evaluate hrun
      exact ⟨fun _ => ⟨terms, hparse⟩, fun _ => rfl⟩
    | error rejection =>
      have hparse := roller.parse_of_run_evaluate_error hrun
      constructor
      · intro hcode
        cases hcode
      · rintro ⟨terms, hterms⟩
        cases hparse.symm.trans hterms
  answers h := (h.answers_evaluate .default mode text).map _

theorem evaluateWords_of_text (drawing : Drawing) {words : List String} {input text : String}
    (h : IsText words input text) (roller : Roller σ) (mode : Mode) :
    evaluateWords drawing roller mode words input =
      ofEvaluation drawing text <$> roller.evaluate .default mode text := by
  rw [evaluateWords, expression?_eq_some_iff.mpr h, ← bind_pure_comp]

/-- The command line and the library agree, whatever is drawn below the heading of a rejection. Let
the arguments be split into options, of which one at most chooses the mode, and words. The expression
is the words or else the first line of the input, and it is evaluated in that mode; there is none only
if there are no words and no input. -/
theorem command_line_agrees (drawing : Drawing) (roller : Roller σ) {arguments words : List String}
    {options : Options} (hread : Options.read {} arguments = .ok (options, words))
    (hsingle : options.IsSingle) (input : String) :
    (∀ text, IsText words input text →
      Agrees roller options.chosen text (runDrawing drawing roller arguments input)) ∧
    ((¬∃ text, IsText words input text) ↔ words = [] ∧ input = "") ∧
    (words = [] → input = "" → ∀ r,
      (runDrawing drawing roller arguments input).run r =
        .ok ⟨1, [], ["No expression given"]⟩ r) := by
  have hrun : runDrawing drawing roller arguments input =
      evaluateWords drawing roller options.chosen words input := by
    rw [runDrawing, ofArguments_eq hread hsingle]
  rw [hrun]
  refine ⟨?_, ?_, ?_⟩
  · intro text htext
    rw [evaluateWords_of_text drawing htext]
    exact agrees_ofEvaluation drawing roller options.chosen text
  · simp only [← expression?_eq_some_iff, ← expression?_eq_none_iff, ← Option.ne_none_iff_exists',
      ne_eq, not_not]
  · rintro rfl rfl r
    rfl

/-- A flag and an expression in three words, the first of which looks like options. -/
theorem command_line_agrees_words_behind_flag :
    let arguments := ["-d", "-1d1", "+", "2"]
    let options : Options := { disadvantage := true }
    let set : RollSet := ⟨[⟨"-1d1", [1], -1⟩, ⟨"+2", [], 2⟩], 1⟩
    let e : Evaluation := ⟨"-1d1 + 2", .disadvantage, [set, set], 0, 1⟩
    Options.read {} arguments = .ok (options, ["-1d1", "+", "2"]) ∧ options.IsSingle ∧
      ∃ outcome r', (run DieSource.roller arguments "").run ⟨.top, []⟩ = .ok outcome r' ∧
        outcome.PrintsEvaluation "-1d1 + 2" .disadvantage e := by
  intro arguments options set e
  have hread : Options.read {} arguments = .ok (options, ["-1d1", "+", "2"]) := by decide
  have hsingle : options.IsSingle := ⟨by decide, by decide, by decide⟩
  have htext : IsText ["-1d1", "+", "2"] "" "-1d1 + 2" := .words (by decide)
  have hparse : Terms.parse .default "-1d1 + 2" =
      .ok ⟨[.dice .minus 1 1 "-1d1", .constant .plus 2 "+2"]⟩ := by decide
  have hrun : ∃ r', (DieSource.roller.evaluate .default .disadvantage "-1d1 + 2").run ⟨.top, []⟩ =
      .ok (.ok e) r' := ⟨_, (DieSource.roller.run_evaluate_of_ok hparse _).trans rfl⟩
  obtain ⟨r', hrun⟩ := hrun
  have hagrees := (command_line_agrees markedBelow DieSource.roller hread hsingle "").1 _ htext
  obtain ⟨outcome, houtcome, hprints⟩ := hagrees.accepted _ _ _ hrun
  exact ⟨hread, hsingle, outcome, r', houtcome, hprints⟩

end FairDice.CommandLine
