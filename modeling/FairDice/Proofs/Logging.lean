import FairDice.Proofs.Rolling
import FairDice.Proofs.Evaluating

/-!
# The log of an evaluation

The log tells how the expression was parsed, then the faces of every term with
dice, in the order in which they are kept in the evaluation, and last what the
evaluation came to. If the roller fails, it tells of the terms whose dice were
all rolled by then, and ends there.
-/
namespace FairDice

/-- The record of a term once it is rolled: constants leave none. -/
def Term.records : Term → TermRoll → List Record
  | .dice _ _ _ raw, roll => [.rolled raw roll.rolls]
  | .constant .., _ => []

/-- The records of terms that were rolled one after the other. -/
def rollRecords (terms : List Term) (rolls : List TermRoll) : List Record :=
  (List.zipWith Term.records terms rolls).flatten

@[simp] theorem rollRecords_nil (rolls : List TermRoll) : rollRecords [] rolls = [] := rfl

@[simp] theorem rollRecords_cons (term : Term) (terms : List Term) (roll : TermRoll)
    (rolls : List TermRoll) :
    rollRecords (term :: terms) (roll :: rolls) = term.records roll ++ rollRecords terms rolls :=
  rfl

theorem rollRecords_append {terms others : List Term} {rolls more : List TermRoll}
    (h : terms.length = rolls.length) :
    rollRecords (terms ++ others) (rolls ++ more) =
      rollRecords terms rolls ++ rollRecords others more := by
  rw [rollRecords, List.zipWith_append h, List.flatten_append]
  rfl

/-- The terms of an evaluation in the order in which they are rolled. -/
def Mode.rolledTerms (mode : Mode) (terms : Terms) : List Term :=
  (List.replicate mode.rollCount terms).flatMap Terms.toList

/-- Set by set or term by term, the records are the same. -/
theorem rollRecords_flatMap {terms : Terms} {sets : List RollSet}
    (h : ∀ set ∈ sets, terms.toList.length = set.terms.length) :
    rollRecords ((List.replicate sets.length terms).flatMap Terms.toList)
        (sets.flatMap RollSet.terms) =
      sets.flatMap fun set => rollRecords terms.toList set.terms := by
  induction sets with
  | nil => rfl
  | cons set sets ih =>
    rw [List.forall_mem_cons] at h
    rw [List.length_cons, List.replicate_succ, List.flatMap_cons, List.flatMap_cons,
      List.flatMap_cons, rollRecords_append h.1, ih h.2]

/-- The records of an evaluation of these terms, from parsing to its summary. -/
def Evaluation.records (e : Evaluation) (terms : Terms) : List Record :=
  .parsed e.expression terms.length ::
    (e.rollSets.flatMap fun set => rollRecords terms.toList set.terms) ++
    [.evaluated e.expression e.mode (e.rollSets.map RollSet.total) e.selectedIndex e.total]

namespace Roller

variable {σ : Type} {roller : Roller σ} {limits : Limits} {r r' : Recorded σ}

/-- A term whose dice cannot all be rolled: after some faces, fewer than it asks for, the roller
fails. -/
inductive FailsTerm (roller : Roller σ) : Term → σ → Fault → σ → Prop
  | dice {sign : Sign} {count sides : UInt32} {raw : String} {faces : List UInt32} {fault : Fault}
    {s middle s' : σ} :
    faces.length < count.toNat →
    Steps roller.DrawsFace (List.replicate faces.length sides) s faces middle →
    (roller.rollDie sides).run middle = .error fault s' →
      FailsTerm roller (.dice sign count sides raw) s fault s'

/-- Runs in a row leave their records in a row. -/
theorem log_of_run_mapM {α β : Type} {f : α → RollM σ β} {records : α → β → List Record}
    {as : List α} {bs : List β}
    (hf : ∀ a r b r', (f a).run r = .ok b r' → r'.log = r.log ++ records a b)
    (h : (as.mapM f).run r = .ok bs r') :
    r'.log = r.log ++ (List.zipWith records as bs).flatten := by
  induction as generalizing r bs with
  | nil =>
    obtain ⟨-, rfl⟩ := run_pure_eq_ok_iff.mp h
    exact (List.append_nil _).symm
  | cons a as ih =>
    rw [List.mapM_cons] at h
    obtain ⟨b, middle, hb, h⟩ := run_bind_eq_ok_iff.mp h
    obtain ⟨bs, last, hbs, h⟩ := run_bind_eq_ok_iff.mp h
    obtain ⟨rfl, rfl⟩ := run_pure_eq_ok_iff.mp h
    rw [ih hbs, hf a _ _ _ hb, List.zipWith_cons_cons, List.flatten_cons, List.append_assoc]

/-- Single dice leave no record. -/
theorem log_of_run_mapM_face {dice faces : List UInt32}
    (h : (dice.mapM roller.face).run r = .ok faces r') : r'.log = r.log := by
  have hface : ∀ sides r face r', (roller.face sides).run r = .ok face r' →
      r'.log = r.log ++ [] := by
    intro sides r face r' h
    rw [List.append_nil, (run_face_eq_ok_iff.mp h).2]
  have hnone : (List.zipWith (fun _ _ => ([] : List Record)) dice faces).flatten = [] := by
    simp [← List.map_uncurry_zip_eq_zipWith, Function.uncurry]
  rw [log_of_run_mapM hface h, hnone, List.append_nil]

theorem run_face_eq_error {sides : UInt32} {fault : Fault}
    (h : (roller.face sides).run r = .error fault r') :
    (roller.rollDie sides).run r.state = .error fault r'.state ∧ r'.log = r.log := by
  rw [run_face] at h
  cases hdie : (roller.rollDie sides).run r.state with
  | ok face s =>
    rw [hdie] at h
    cases h
  | error fault s =>
    rw [hdie] at h
    cases h
    exact ⟨rfl, rfl⟩

/-- A rolled term writes its record, and a constant none. -/
theorem log_of_run_rollTerm {term : Term} {roll : TermRoll}
    (h : (roller.rollTerm term).run r = .ok roll r') :
    r'.log = r.log ++ term.records roll := by
  cases term with
  | constant sign value raw =>
    rw [run_rollTerm_constant] at h
    cases h
    exact (List.append_nil _).symm
  | dice sign count sides raw =>
    rw [run_rollTerm_dice, faces_eq_mapM] at h
    cases hfaces : ((List.replicate count.toNat sides).mapM roller.face).run r with
    | error fault middle =>
      rw [hfaces] at h
      cases h
    | ok faces middle =>
      rw [hfaces] at h
      cases h
      rw [log_of_run_mapM_face hfaces]
      rfl

/-- A term that fails leaves no record, not even of the faces it had. -/
theorem failsTerm_of_run {term : Term} {fault : Fault}
    (h : (roller.rollTerm term).run r = .error fault r') :
    roller.FailsTerm term r.state fault r'.state ∧ r'.log = r.log := by
  cases term with
  | constant sign value raw =>
    rw [run_rollTerm_constant] at h
    cases h
  | dice sign count sides raw =>
    rw [run_rollTerm_dice, faces_eq_mapM] at h
    cases hfaces : ((List.replicate count.toNat sides).mapM roller.face).run r with
    | ok faces middle =>
      rw [hfaces] at h
      cases h
    | error fault last =>
      rw [hfaces] at h
      cases h
      obtain ⟨front, die, back, faces, middle, hdice, hfront, hdie⟩ :=
        exists_of_run_mapM_eq_error hfaces
      obtain ⟨hfault, hlog⟩ := run_face_eq_error hdie
      obtain ⟨hcount, hfrontDice, hrest⟩ := List.append_eq_replicate_iff.mp hdice.symm
      obtain ⟨rfl, -⟩ := List.cons.inj hrest
      have hsteps : Steps roller.DrawsFace front r.state faces middle.state :=
        steps_of_run_mapM (fun _ _ _ _ _ h => (run_face_eq_ok_iff.mp h).1) hfront
      have hlength : faces.length = front.length := hsteps.length_eq
      rw [hfrontDice, ← hlength] at hsteps
      have hfew : faces.length < count.toNat := by
        rw [hlength, ← hcount, List.length_cons]
        omega
      exact ⟨.dice hfew hsteps hfault, by rw [hlog, log_of_run_mapM_face hfront]⟩

/-- Terms write their records in order. -/
theorem log_of_run_mapM_rollTerm {terms : List Term} {rolls : List TermRoll}
    (h : (terms.mapM roller.rollTerm).run r = .ok rolls r') :
    r'.log = r.log ++ rollRecords terms rolls :=
  log_of_run_mapM (fun _ _ _ _ => log_of_run_rollTerm) h

/-- Rolling sets of terms is rolling all their terms in a row. -/
theorem rollTimes_flatMap (roller : Roller σ) (terms : Terms) (n : Nat) :
    (List.flatMap RollSet.terms) <$> roller.rollTimes terms n =
      ((List.replicate n terms).flatMap Terms.toList).mapM roller.rollTerm := by
  induction n with
  | zero => simp [rollTimes]
  | succ n ih =>
    rw [List.replicate_succ, List.flatMap_cons, List.mapM_append, ← ih]
    simp [rollTimes, roll, RollSet.ofTerms]

/-- A run that fails has records of the terms it got through and of nothing else. -/
theorem exists_of_run_mapM_rollTerm_eq_error {terms : List Term} {fault : Fault}
    (hterms : ∀ term ∈ terms, term.Within limits)
    (h : (terms.mapM roller.rollTerm).run r = .error fault r') :
    ∃ front term back rolls middle, terms = front ++ term :: back ∧
      Steps roller.RollsTerm front r.state rolls middle ∧
      roller.FailsTerm term middle fault r'.state ∧ r'.log = r.log ++ rollRecords front rolls := by
  obtain ⟨front, term, back, rolls, middle, rfl, hfront, hterm⟩ := exists_of_run_mapM_eq_error h
  obtain ⟨hfails, hlog⟩ := failsTerm_of_run hterm
  have hsteps : Steps roller.RollsTerm front r.state rolls middle.state := by
    refine steps_of_run_mapM (fun term hmem _ _ _ hrun => ?_) hfront
    exact rollsTerm_of_run (hterms term (List.mem_append_left _ hmem)) hrun
  exact ⟨front, term, back, rolls, middle.state, rfl, hsteps, hfails,
    hlog.trans (log_of_run_mapM_rollTerm hfront)⟩

variable {mode : Mode} {terms : Terms} {expression : String}

theorem log_of_run_rollTimes {n : Nat} {sets : List RollSet}
    (h : (roller.rollTimes terms n).run r = .ok sets r') :
    r'.log = r.log ++ rollRecords ((List.replicate n terms).flatMap Terms.toList)
      (sets.flatMap RollSet.terms) := by
  have hflat : (List.flatMap RollSet.terms <$> roller.rollTimes terms n).run r =
      .ok (sets.flatMap RollSet.terms) r' := run_map_eq_ok_iff.mpr ⟨sets, h, rfl⟩
  rw [rollTimes_flatMap] at hflat
  exact log_of_run_mapM_rollTerm hflat

/-- An evaluation that comes to its end has left a record of every term with dice, and then one of
itself. -/
theorem log_of_run_evaluateTerms {e : Evaluation} (hterms : terms.Within limits)
    (h : (roller.evaluateTerms expression mode terms).run r = .ok e r') :
    r'.log = r.log ++ (e.rollSets.flatMap fun set => rollRecords terms.toList set.terms) ++
      [e.summary] := by
  have hevaluates := evaluates_of_run hterms h
  obtain ⟨sets, middle, hsets, h⟩ := run_bind_eq_ok_iff.mp h
  obtain ⟨_, last, hlog, h⟩ := run_bind_eq_ok_iff.mp h
  obtain ⟨rfl, rfl⟩ := run_pure_eq_ok_iff.mp h
  cases hlog
  have hlength : ∀ set ∈ sets, terms.toList.length = set.terms.length :=
    hevaluates.steps.forall_outcomes fun copy hcopy _ _ _ hset => by
      rw [List.eq_of_mem_replicate hcopy] at hset
      exact hset.steps.length_eq.symm
  have hcount : sets.length = mode.rollCount := hevaluates.length_eq
  have hrecords := log_of_run_rollTimes hsets
  rw [← hcount, rollRecords_flatMap hlength] at hrecords
  exact congrArg (· ++ [_]) hrecords

/-- An evaluation that fails has left records of the terms that were done by then. -/
theorem exists_of_run_evaluateTerms_eq_error {fault : Fault} (hterms : terms.Within limits)
    (h : (roller.evaluateTerms expression mode terms).run r = .error fault r') :
    ∃ front term back rolls middle, mode.rolledTerms terms = front ++ term :: back ∧
      Steps roller.RollsTerm front r.state rolls middle ∧
      roller.FailsTerm term middle fault r'.state ∧ r'.log = r.log ++ rollRecords front rolls := by
  have hsets : (roller.rollTimes terms mode.rollCount).run r = .error fault r' := by
    rcases run_bind_eq_error_iff.mp h with hsets | ⟨sets, middle, -, h⟩
    · exact hsets
    · cases h
  have hflat : (List.flatMap RollSet.terms <$> roller.rollTimes terms mode.rollCount).run r =
      .error fault r' := run_map_eq_error_iff.mpr hsets
  rw [rollTimes_flatMap] at hflat
  have hall : ∀ term ∈ mode.rolledTerms terms, term.Within limits := by
    intro term hmem
    obtain ⟨copy, hcopy, hterm⟩ := List.mem_flatMap.mp hmem
    rw [List.eq_of_mem_replicate hcopy] at hterm
    exact hterms.within term hterm
  exact exists_of_run_mapM_rollTerm_eq_error hall hflat

end Roller

def Record.line : Record → String × String
  | .parsed input terms => ("TRACE", "parsed \"" ++ input ++ "\" into " ++ toString terms ++ " terms")
  | .rejected input rejection =>
    ("DEBUG", "rejected \"" ++ input ++ "\" (" ++ rejection.kind.name ++ "): " ++ rejection.message)
  | .rolled term faces =>
    ("TRACE", "rolled " ++ term ++ ": [" ++
      ", ".intercalate (faces.map fun face => toString face.toNat) ++ "]")
  | .evaluated expression mode totals kept total =>
    ("DEBUG", "evaluated \"" ++ expression ++ "\" (" ++ mode.name ++ "): totals [" ++
      ", ".intercalate (totals.map fun t => toString t.toInt) ++ "], kept #" ++
      toString kept.toNat ++ " = " ++ toString total.toInt)

theorem append_quoted (front text back : String) :
    front ++ "\"" ++ text ++ ("\"" ++ back) = front ++ quoted text ++ back := by
  simp only [quoted, String.append_assoc]

theorem append_bracketed (front before : String) (items : List String) :
    front ++ (before ++ "[") ++ ", ".intercalate items ++ "]" =
      front ++ before ++ bracketed items := by
  simp only [bracketed, String.append_assoc]

/-- The line of a record is its level and its message. -/
theorem Record.line_eq (record : Record) : record.line = (record.level.name, record.message) := by
  have hquote : "\" (" = "\"" ++ " (" := by decide
  cases record with
  | parsed input terms =>
    have hparsed : "parsed \"" = "parsed " ++ "\"" := by decide
    have hinto : "\" into " = "\"" ++ " into " := by decide
    rw [line, hparsed, hinto, append_quoted]
    rfl
  | rejected input rejection =>
    have hrejected : "rejected \"" = "rejected " ++ "\"" := by decide
    rw [line, hrejected, hquote, append_quoted]
    rfl
  | rolled term faces =>
    have hcolon : ": [" = ": " ++ "[" := by decide
    rw [line, hcolon, append_bracketed]
    rfl
  | evaluated expression mode totals kept total =>
    have hevaluated : "evaluated \"" = "evaluated " ++ "\"" := by decide
    have htotals : "): totals [" = "): totals " ++ "[" := by decide
    have hkept : "], kept #" = "]" ++ ", kept #" := by decide
    rw [line, hevaluated, hquote, append_quoted, htotals, hkept, ← @String.append_assoc _ "]",
      append_bracketed]
    rfl

variable {σ : Type}

/-- What an evaluation adds to the log, whatever the roller. A rejection is all there is. Otherwise
the parsed expression comes first, then the faces of the dice as they are kept in the evaluation, and
then what the evaluation came to; if the roller fails, the terms done by then come last. -/
theorem log_tells_evaluation (roller : Roller σ) (limits : Limits) (mode : Mode)
    (expression : String) (r : Recorded σ) :
    (∀ rejection, Terms.parse limits expression = .error rejection →
      (roller.evaluate limits mode expression).run r =
        .ok (.error rejection) ⟨r.state, r.log ++ [.rejected expression rejection]⟩) ∧
    (∀ terms, Terms.parse limits expression = .ok terms →
      (∃ e s', (roller.evaluate limits mode expression).run r =
          .ok (.ok e) ⟨s', r.log ++ e.records terms⟩ ∧
        roller.Evaluates expression mode terms r.state e s') ∨
      ∃ fault s' front term back rolls middle, (roller.evaluate limits mode expression).run r =
          .error fault ⟨s', r.log ++ .parsed expression terms.length :: rollRecords front rolls⟩ ∧
        mode.rolledTerms terms = front ++ term :: back ∧
        Steps roller.RollsTerm front r.state rolls middle ∧
        roller.FailsTerm term middle fault s') ∧
    ∀ record : Record, record.line = (record.level.name, record.message) := by
  refine ⟨fun rejection h => roller.run_evaluate_of_error h r, ?_, Record.line_eq⟩
  intro terms hparse
  have hwithin := Terms.within_of_parse hparse
  rw [roller.run_evaluate_of_ok hparse, EStateM.run_map]
  cases hrun : (roller.evaluateTerms expression mode terms).run
      { r with log := r.log ++ [.ofParse expression (.ok terms)] } with
  | ok e r' =>
    have hevaluates := Roller.evaluates_of_run hwithin hrun
    have hlog : r'.log = r.log ++ e.records terms := by
      rw [Roller.log_of_run_evaluateTerms hwithin hrun, Evaluation.records,
        hevaluates.expression_eq, Evaluation.summary]
      simp [Record.ofParse, hevaluates.expression_eq]
    refine .inl ⟨e, r'.state, ?_, hevaluates⟩
    rw [← hlog]
    rfl
  | error fault r' =>
    obtain ⟨front, term, back, rolls, middle, hsplit, hsteps, hfails, hlog⟩ :=
      Roller.exists_of_run_evaluateTerms_eq_error hwithin hrun
    refine .inr ⟨fault, r'.state, front, term, back, rolls, middle, ?_, hsplit, hsteps, hfails⟩
    rw [List.append_assoc] at hlog
    exact congrArg (fun log => EStateM.Result.error fault (Recorded.mk r'.state log)) hlog

/-- Faces that run out in the second set of rolls, after one of two dice: the log has the first set,
without its constant, and nothing of the second. -/
theorem log_tells_evaluation_faces_run_out :
    let terms : Terms := ⟨[.dice .plus 2 6 "2d6", .constant .minus 3 "-3",
      .dice .plus 1 4 "+1d4"]⟩
    let start : Recorded DieSource := ⟨.faces [6, 1, 4, 5], []⟩
    let run := (DieSource.roller.evaluate .default .advantage "2d6 - 3 + 1d4").run start
    Terms.parse .default "2d6 - 3 + 1d4" = .ok terms ∧
      run = .error .facesExhausted ⟨.faces [],
        [.parsed "2d6 - 3 + 1d4" 3, .rolled "2d6" [6, 1], .rolled "+1d4" [4]]⟩ ∧
      ∃ fault s' front term back rolls middle,
        run = .error fault ⟨s', .parsed "2d6 - 3 + 1d4" 3 :: rollRecords front rolls⟩ ∧
          Mode.advantage.rolledTerms terms = front ++ term :: back ∧
          Steps DieSource.roller.RollsTerm front start.state rolls middle ∧
          DieSource.roller.FailsTerm term middle fault s' := by
  intro terms start run
  have hparse : Terms.parse .default "2d6 - 3 + 1d4" = .ok terms := by decide
  have hrun : run = .error .facesExhausted ⟨.faces [],
      [.parsed "2d6 - 3 + 1d4" 3, .rolled "2d6" [6, 1], .rolled "+1d4" [4]]⟩ :=
    (DieSource.roller.run_evaluate_of_ok hparse start).trans rfl
  refine ⟨hparse, hrun, ?_⟩
  rcases (log_tells_evaluation DieSource.roller .default .advantage "2d6 - 3 + 1d4" start).2.1
    terms hparse with ⟨e, s', hok, -⟩ | hfails
  · cases hrun.symm.trans hok
  · exact hfails

end FairDice
