import FairDice.Proofs.Evaluating
import FairDice.Proofs.Noting
import Mathlib

/-!
# No arithmetic leaves its words

Whatever faces a roller answers with, also those that the dice do not have, the
dice are counted and the faces and totals added up exactly, at every step on the
way and not just in the end, and the roller is only asked for dice that have
sides.
-/
namespace FairDice

variable {limits : Limits}

namespace Operand

/-- Reading the terms of operands, after `dice` dice, gets to an operand after `dice'` dice. -/
inductive Reaches (limits : Limits) : UInt64 → List Operand → UInt64 → Operand → Prop
  | first {dice : UInt64} {o : Operand} {rest : List Operand} :
    Reaches limits dice (o :: rest) dice o
  | later {dice total dice' : UInt64} {o o' : Operand} {rest : List Operand} {term : Term} :
    o.term limits dice = .ok (term, total) → Reaches limits total rest dice' o' →
      Reaches limits dice (o :: rest) dice' o'

variable {dice dice' total count : UInt64} {o : Operand} {ops : List Operand} {term : Term}

/-- Dice are only accepted if they and those before them are within the limit. -/
theorem toNat_le_of_diceTerm {sides : UInt64}
    (h : o.diceTerm limits dice count sides = .ok (term, total)) :
    total.toNat ≤ limits.maxDice := by
  rw [diceTerm] at h
  split at h
  · cases h
  split at h
  · cases h
  dsimp only at h
  split at h
  · cases h
  next hcount =>
    cases h
    exact of_decide_eq_true (Option.filter_eq_some_iff.mp hcount).2

/-- An accepted operand leaves the count of dice within the limits. -/
theorem toNat_le_of_term (h : o.term limits dice = .ok (term, total))
    (hdice : dice.toNat ≤ limits.maxDice) : total.toNat ≤ limits.maxDice := by
  rw [Operand.term] at h
  cases hfirst : o.number o.first with
  | error rejection =>
    rw [hfirst] at h
    cases h
  | ok first =>
    rw [hfirst] at h
    cases hsides : o.sides? with
    | none =>
      rw [hsides] at h
      cases h
      exact hdice
    | some digits =>
      rw [hsides] at h
      cases hnumber : o.number digits with
      | error rejection =>
        replace h : (do o.diceTerm limits dice first (← o.number digits)) = .ok (term, total) := h
        rw [hnumber] at h
        cases h
      | ok sides =>
        replace h : (do o.diceTerm limits dice first (← o.number digits)) = .ok (term, total) := h
        rw [hnumber] at h
        exact toNat_le_of_diceTerm h

/-- The count of dice is within the limits wherever the walk over the operands stands. -/
theorem Reaches.toNat_le (h : Reaches limits dice ops dice' o)
    (hdice : dice.toNat ≤ limits.maxDice) : dice'.toNat ≤ limits.maxDice := by
  induction h with
  | first => exact hdice
  | later hterm _ ih => exact ih (toNat_le_of_term hterm hdice)

/-- The dice so far are few and one number adds little. -/
theorem Reaches.toNat_addSaturating (h : Reaches limits dice ops dice' o)
    (hdice : dice.toNat ≤ limits.maxDice) (hcount : readNumber? o.first = some count) :
    (addSaturating dice' count).toNat = dice'.toNat + count.toNat := by
  obtain ⟨hvalue, hle⟩ := readNumber?_eq_some_iff.mp hcount
  have hbefore := h.toNat_le hdice
  have hmax := limits.maxDice_le
  have hsize : maxValue + 100 < UInt64.size := by decide
  exact FairDice.toNat_addSaturating (by omega)

end Operand

/-- A word holds a total without a loss, and the total is small. -/
structure HoldsTotal (word : Int64) (total : Int) : Prop where
  toInt_eq : word.toInt = total
  natAbs_le : total.natAbs ≤ 20 * maxValue

/-- What came of a term is computed without a loss: the faces are added up from the first to the
last, and the sign is put in front. -/
def TermRoll.IsExact (roll : TermRoll) : Term → Prop
  | .constant sign value raw =>
    roll = .ofConstant sign value raw ∧ HoldsTotal value.toInt64 value.toNat ∧
      HoldsTotal roll.total (sign.factor * value.toNat)
  | .dice sign count _ raw =>
    roll = .ofFaces sign roll.rolls raw ∧ roll.rolls.length = count.toNat ∧
      (∀ front, front <+: roll.rolls → HoldsTotal (faceSum front) (faceTotal front)) ∧
      HoldsTotal roll.total (sign.factor * faceTotal roll.rolls)

/-- What came of all terms is computed without a loss, and the totals are added up without one. -/
structure RollSet.IsExact (set : RollSet) (terms : Terms) : Prop where
  eq_ofTerms : set = .ofTerms set.terms
  terms_exact : List.Forall₂ (fun term (roll : TermRoll) => roll.IsExact term)
    terms.toList set.terms
  total_exact : ∀ front, front <+: set.terms →
    HoldsTotal (RollSet.ofTerms front).total (front.map fun roll => roll.total.toInt).sum

structure Evaluation.IsExact (e : Evaluation) (mode : Mode) (terms : Terms) : Prop where
  length_eq : e.rollSets.length = mode.rollCount
  sets_exact : ∀ set ∈ e.rollSets, set.IsExact terms
  total_mem : ∃ set ∈ e.rollSets, set.total = e.total
  total_exact : HoldsTotal e.total e.total.toInt

theorem holdsTotal_faceSum {faces : List UInt32} (h : faces.length ≤ 100) :
    HoldsTotal (faceSum faces) (faceTotal faces) := by
  have hmax : 100 * 2 ^ 32 ≤ 20 * maxValue := by decide
  exact ⟨(toInt_faceSum h).1, (natAbs_faceTotal_le h).trans hmax⟩

theorem HoldsTotal.apply {word : Int64} {total : Int} (h : HoldsTotal word total) (sign : Sign) :
    HoldsTotal (sign.apply word) (sign.factor * total) := by
  have hmax : 20 * maxValue < 2 ^ 63 := by decide
  obtain ⟨rfl, hle⟩ := h
  exact ⟨sign.toInt_apply (hle.trans_lt hmax), by rwa [sign.natAbs_factor_mul]⟩

namespace Roller

variable {σ : Type} {roller : Roller σ} {s s' : σ} {terms : Terms}

/-- A rolled term holds the exact total of its faces. -/
theorem RollsTerm.isExact {term : Term} {roll : TermRoll} (hterm : term.Within limits)
    (h : roller.RollsTerm term s roll s') : roll.IsExact term := by
  cases h with
  | @constant sign value raw total s htotal =>
    have hmax : maxValue < 2 ^ 63 ∧ maxValue ≤ 20 * maxValue := by decide
    have hvalue : value.toNat ≤ maxValue := hterm
    have hholds : HoldsTotal value.toInt64 value.toNat :=
      ⟨toInt_toInt64 (by omega), by rw [Int.natAbs_natCast]; omega⟩
    have hroll : (⟨raw, [], total⟩ : TermRoll) = .ofConstant sign value raw :=
      congrArg (TermRoll.mk raw []) (Int64.toInt_inj.mp (htotal.trans (hholds.apply sign).1.symm))
    exact ⟨hroll, hholds, htotal, (hholds.apply sign).2⟩
  | @dice sign count sides raw faces total s s' hsteps htotal =>
    have hlength := length_le_of_steps hterm hsteps
    have hholds := (holdsTotal_faceSum hlength).apply sign
    have hroll : (⟨raw, faces, total⟩ : TermRoll) = .ofFaces sign faces raw :=
      congrArg (TermRoll.mk raw faces) (Int64.toInt_inj.mp (htotal.trans hholds.1.symm))
    refine ⟨hroll, ?_, ?_, htotal, hholds.2⟩
    · rw [hsteps.length_eq, List.length_replicate]
    · exact fun front hfront => holdsTotal_faceSum (hfront.length_le.trans hlength)

/-- A roll set holds the exact totals of its terms and of all of them together. -/
theorem RollsSet.isExact {set : RollSet} (hterms : terms.Within limits)
    (h : roller.RollsSet terms s set s') : set.IsExact terms := by
  have htotals := natAbs_total_le_of_steps hterms h.steps
  have hlength := length_rolls_le_of_steps hterms h.steps
  have hfronts : ∀ front, front <+: set.terms →
      HoldsTotal (RollSet.ofTerms front).total (front.map fun roll => roll.total.toInt).sum := by
    intro front hfront
    obtain ⟨hsum, hle⟩ := RollSet.toInt_total_ofTerms
      (fun roll hroll => htotals roll (hfront.subset hroll)) (hfront.length_le.trans hlength)
    exact ⟨hsum, hsum ▸ hle⟩
  refine ⟨?_, h.steps.forall₂ fun term hterm _ _ _ => RollsTerm.isExact (hterms.within term hterm),
    hfronts⟩
  have htotal : set.total = (RollSet.ofTerms set.terms).total :=
    Int64.toInt_inj.mp (h.total_eq.trans (hfronts _ List.prefix_rfl).1.symm)
  exact congrArg (RollSet.mk set.terms) htotal

/-- All the sets of an evaluation are exact, and so is the total it keeps. -/
theorem Evaluates.isExact {expression : String} {mode : Mode} {e : Evaluation}
    (hterms : terms.Within limits) (h : roller.Evaluates expression mode terms s e s') :
    e.IsExact mode terms := by
  have hsets : ∀ set ∈ e.rollSets, set.IsExact terms := by
    intro set hset
    obtain ⟨t, t', hrolls⟩ := h.exists_rollsSet set hset
    exact hrolls.isExact hterms
  obtain ⟨set, hset, htotal⟩ := h.selected
  have hmem : set ∈ e.rollSets := List.mem_of_getElem? hset
  have hholds := (hsets set hmem).total_exact _ List.prefix_rfl
  rw [← (hsets set hmem).eq_ofTerms, htotal] at hholds
  exact ⟨h.length_eq, hsets, ⟨set, hmem, htotal⟩, rfl, hholds.1 ▸ hholds.2⟩

end Roller

/-- The dice of the terms are counted without a loss, from the first term to the last. -/
theorem Terms.Within.toNat_diceCount_of_prefix {terms : Terms} (h : terms.Within limits)
    {front : List Term} (hfront : front <+: terms.toList) :
    (Terms.mk front).diceCount.toNat = (front.map (·.diceCount.toNat)).sum := by
  have hsize : 100 < UInt32.size := by decide
  have hle : (front.map (·.diceCount.toNat)).sum ≤ (terms.toList.map (·.diceCount.toNat)).sum :=
    (hfront.map _).sublist.sum_le_sum fun _ _ => Nat.zero_le _
  exact Terms.toNat_diceCount_eq_sum (Nat.lt_of_le_of_lt (hle.trans h.sum_diceCount_le) hsize)

variable {σ : Type}

/-- An evaluation without an overflow: whatever is read, counted, rolled and added up on the way is
exact, and it comes to an answer. -/
structure EvaluatesExactly (roller : Roller σ) (limits : Limits) (mode : Mode)
    (expression : String) (s : σ) (log : List Record) : Prop where
  counting : ∀ ops dice o count, operands (stripBlanks expression.toList) = .ok ops →
    Operand.Reaches limits 0 ops dice o → readNumber? o.first = some count →
      (addSaturating dice count).toNat = dice.toNat + count.toNat
  rejected : ∀ rejection, Terms.parse limits expression = .error rejection →
    rejection ≠ .tokenReconstructionMismatch ∧
      ∃ log', (roller.evaluate limits mode expression).run ⟨s, log⟩ =
          .ok (.error rejection) ⟨s, log'⟩ ∧
        (roller.noting.evaluate limits mode expression).run ⟨(s, []), log⟩ =
          .ok (.error rejection) ⟨(s, []), log'⟩
  accepted : ∀ terms, Terms.parse limits expression = .ok terms →
    (∀ front, front <+: terms.toList →
      (Terms.mk front).diceCount.toNat = (front.map (·.diceCount.toNat)).sum) ∧
    (∀ sides ∈ mode.dieSides terms, 1 ≤ sides ∧ sides ≤ 1000) ∧ terms.dieSides.length ≤ 100 ∧
    ∃ e s' log', (roller.evaluate limits mode expression).run ⟨s, log⟩ =
        .ok (.ok e) ⟨s', log'⟩ ∧
      (roller.noting.evaluate limits mode expression).run ⟨(s, []), log⟩ =
        .ok (.ok e) ⟨(s', mode.dieSides terms), log'⟩ ∧
      e.IsExact mode terms

/-- A roller that answers every die with sides, with whatever faces, never makes an evaluation
overflow. -/
theorem evaluatesExactly (roller : Roller σ) (h : roller.AnswersDice) (limits : Limits) (mode : Mode)
    (expression : String) (s : σ) (log : List Record) :
    EvaluatesExactly roller limits mode expression s log where
  counting _ _ _ _ _ hreaches hcount :=
    hreaches.toNat_addSaturating (Nat.zero_le _) hcount
  rejected := by
    intro rejection hparse
    refine ⟨(Terms.ofExpression_eq_error_iff.mp hparse).ne_tokenReconstructionMismatch, ?_⟩
    exact ⟨_, roller.run_evaluate_of_error hparse _, roller.noting.run_evaluate_of_error hparse _⟩
  accepted := by
    intro terms hparse
    have hwithin := Terms.within_of_parse hparse
    refine ⟨fun front => hwithin.toNat_diceCount_of_prefix, ?_, ?_, ?_⟩
    · intro sides hsides
      obtain ⟨hpos, hle⟩ := hwithin.dieSides_bounds hsides
      exact ⟨hpos, hle.trans limits.maxSides_le⟩
    · rw [terms.length_dieSides]
      exact hwithin.sum_diceCount_le
    · obtain ⟨e, r', hrun⟩ := h.answers_evaluateTerms hwithin expression mode
        ⟨s, log ++ [.ofParse expression (.ok terms)]⟩
      have hnotes := roller.notes_evaluateTerms expression mode terms _ _ _ [] hrun
      refine ⟨e, r'.state, r'.log, ?_, ?_, (Roller.evaluates_of_run hwithin hrun).isExact hwithin⟩
      · rw [roller.run_evaluate_of_ok hparse, EStateM.run_map, hrun]
        rfl
      · rw [roller.noting.run_evaluate_of_ok hparse, EStateM.run_map, hnotes]
        rfl

/-- Faces far above the sides and the largest number taken off from them: nothing overflows, also on
a roller that fails where a die has no sides. -/
theorem evaluatesExactly_above_sides :
    let roller : Roller Unit :=
      ⟨fun sides => if sides = 0 then throw .noSides else pure 4294967295⟩
    let terms : Terms := ⟨[.dice .plus 2 6 "2d6", .constant .minus 9007199254740991
      "-9007199254740991"]⟩
    roller.AnswersDice ∧
      Terms.parse .default "2d6 - 9007199254740991" = .ok terms ∧
      ∃ e s' log', (roller.evaluate .default .advantage "2d6 - 9007199254740991").run ⟨(), []⟩ =
          .ok (.ok e) ⟨s', log'⟩ ∧
        (roller.noting.evaluate .default .advantage "2d6 - 9007199254740991").run ⟨((), []), []⟩ =
          .ok (.ok e) ⟨(s', [6, 6, 6, 6]), log'⟩ ∧
        e.IsExact .advantage terms := by
  intro roller terms
  have hanswers : roller.AnswersDice := by
    intro sides s hsides
    have hne : sides ≠ 0 := by
      rintro rfl
      exact absurd hsides (by decide)
    refine ⟨4294967295, s, ?_⟩
    rw [Roller.DrawsFace]
    simp only [roller, hne, if_false]
    rfl
  have hparse : Terms.parse .default "2d6 - 9007199254740991" = .ok terms := by decide
  obtain ⟨-, -, -, hrun⟩ := (evaluatesExactly roller hanswers .default .advantage
    "2d6 - 9007199254740991" () []).accepted terms hparse
  exact ⟨hanswers, hparse, hrun⟩

end FairDice
