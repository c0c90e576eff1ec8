import FairDice.Expression.Terms
import FairDice.Proofs.Cutting
import FairDice.Proofs.Numbers
import FairDice.Proofs.Rules
import Mathlib.Data.List.Forall2

/-!
# Checking the operands of an expression

The words that count and compare are exact wherever they are used, so that each
operand answers with the first rule it breaks, and a row of them with what its
leftmost offender answers.
-/
namespace FairDice

variable {limits : Limits}

namespace Written

variable {w : Written} {digits : List Char} {dice : UInt64}

theorem token_placedAt (w : Written) (start : Nat) : (w.placedAt start).token = w.token := by
  rw [Operand.token, text_placedAt, token]

theorem number_placedAt (w : Written) (start : Nat) (h : decimalValue digits ≤ maxValue) :
    ∃ value : UInt64, value.toNat = decimalValue digits ∧
      (w.placedAt start).number digits = .ok value := by
  obtain ⟨value, hvalue⟩ := Option.ne_none_iff_exists'.mp
    (mt readNumber?_eq_none_iff.mp (Nat.not_lt.mpr h))
  exact ⟨value, (readNumber?_eq_some_iff.mp hvalue).1, by rw [Operand.number, hvalue]⟩

/-- A number that is too large is rejected at its operand's place. -/
theorem number_placedAt_of_lt (start : Nat) (h : maxValue < decimalValue digits) :
    (w.placedAt start).number digits =
      .error (Rule.number.rejection limits dice.toNat start w) := by
  rw [Operand.number, readNumber?_eq_none_iff.mpr h, token_placedAt, span_placedAt]
  rfl

theorem term_placedAt (w : Written) (start : Nat) :
    (w.placedAt start).term limits dice = (do
      let first ← (w.placedAt start).number w.first
      match w.sides? with
      | none => return (.constant w.sign first w.token, dice)
      | some digits =>
        (w.placedAt start).diceTerm limits dice first (← (w.placedAt start).number digits)) := by
  rw [Operand.term, token_placedAt]
  rfl

theorem le_maxValue_of_not_breaks {diceBefore : Nat} (h : ¬w.Breaks limits diceBefore .number) :
    ∀ digits ∈ w.numbers, decimalValue digits ≤ maxValue :=
  fun digits hdigits => Nat.not_lt.mp fun hlt => h ⟨digits, hdigits, hlt⟩

/-- A number above the largest one is found wherever it stands in the operand. -/
theorem term_of_breaks_number (start : Nat) (h : w.Breaks limits dice.toNat .number) :
    (w.placedAt start).term limits dice =
      .error (Rule.number.rejection limits dice.toNat start w) := by
  rw [term_placedAt]
  by_cases hfirst : maxValue < decimalValue w.first
  · rw [number_placedAt_of_lt start hfirst]
    rfl
  · obtain ⟨value, -, hvalue⟩ := number_placedAt w start (Nat.not_lt.mp hfirst)
    obtain ⟨digits, hdigits, hlt⟩ := h
    have hsides : w.sides? = some digits := by
      rcases List.mem_cons.mp hdigits with rfl | hdigits
      · exact absurd hlt hfirst
      · simpa using hdigits
    rw [hvalue, hsides]
    show (do let sides ← (w.placedAt start).number digits; _) = _
    rw [number_placedAt_of_lt start hlt]
    rfl

/-- A constant whose number is small enough is accepted, and adds no dice. -/
theorem term_of_constant (start : Nat) (hsides : w.sides? = none)
    (hnumber : ¬w.Breaks limits dice.toNat .number) :
    ∃ term, (w.placedAt start).term limits dice = .ok (term, dice) ∧ w.Means term := by
  have hfirst := le_maxValue_of_not_breaks hnumber w.first (by simp [numbers])
  obtain ⟨value, hvalue, hread⟩ := number_placedAt w start hfirst
  refine ⟨.constant w.sign value w.token, ?_, rfl, hvalue, hsides, rfl⟩
  rw [term_placedAt, hread, hsides]
  rfl

/-- Dice go on to the later rules with their exact numbers. -/
theorem term_eq_diceTerm (start : Nat) (hsides : w.sides? = some digits)
    (hnumber : ¬w.Breaks limits dice.toNat .number) :
    ∃ count sides : UInt64, count.toNat = decimalValue w.first ∧
      sides.toNat = decimalValue digits ∧
      (w.placedAt start).term limits dice = (w.placedAt start).diceTerm limits dice count sides := by
  have hsmall := le_maxValue_of_not_breaks hnumber
  obtain ⟨count, hcount, hreadCount⟩ := number_placedAt w start (hsmall w.first (by simp [numbers]))
  obtain ⟨sides, hsides', hreadSides⟩ :=
    number_placedAt w start (hsmall digits (by simp [numbers, hsides]))
  refine ⟨count, sides, hcount, hsides', ?_⟩
  rw [term_placedAt, hreadCount, hsides]
  show (do let sides ← (w.placedAt start).number digits; _) = _
  rw [hreadSides]
  rfl

section

variable {count sides : UInt64}

theorem breaks_positive_iff {diceBefore : Nat} (hw : w.sides? = some digits)
    (hcount : count.toNat = decimalValue w.first) (hsides : sides.toNat = decimalValue digits) :
    w.Breaks limits diceBefore .positive ↔ count < 1 ∨ sides < 1 := by
  simp [Breaks, hw, ← hcount, ← hsides, UInt64.lt_iff_toNat_lt]

/-- The sides break their rule when they do not fit their word or exceed the bound. -/
theorem breaks_sides_iff {diceBefore : Nat} (hw : w.sides? = some digits)
    (hsides : sides.toNat = decimalValue digits) :
    w.Breaks limits diceBefore .sides ↔
      (narrow? sides).filter (·.toNat ≤ limits.maxSides) = none := by
  have hmax := limits.maxSides_le
  have hsize : 1000 < UInt32.size := by decide
  rw [narrow?_filter_eq_none_iff (by omega), hsides]
  simp [Breaks, hw]

/-- The dice so far are few and one number adds little, so that the sum is exact. -/
theorem toNat_addSaturating_count (hw : w.sides? = some digits)
    (hdice : dice.toNat ≤ limits.maxDice) (hcount : count.toNat = decimalValue w.first)
    (hnumber : ¬w.Breaks limits dice.toNat .number) :
    (addSaturating dice count).toNat = dice.toNat + w.dice := by
  have hfirst := le_maxValue_of_not_breaks hnumber w.first (by simp [numbers])
  have hmax := limits.maxDice_le
  have hsize : maxValue + 100 < UInt64.size := by decide
  rw [toNat_addSaturating (by omega), Written.dice, hw, hcount]
  rfl

end

/-- An operand answers with the first rule that it breaks. -/
theorem FirstBreaks.term_placedAt {rule : Rule} (start : Nat)
    (hdice : dice.toNat ≤ limits.maxDice) (h : w.FirstBreaks limits dice.toNat rule) :
    (w.placedAt start).term limits dice =
      .error (rule.rejection limits dice.toNat start w) := by
  obtain ⟨hbreaks, hfirst⟩ := h
  cases hw : w.sides? with
  | none =>
    have hnone : w.dice = 0 := by simp [Written.dice, hw]
    cases rule with
    | number => exact term_of_breaks_number start hbreaks
    | positive => simp [Breaks, hw] at hbreaks
    | sides => simp [Breaks, hw] at hbreaks
    | dice => exact absurd hbreaks (by simp [Breaks, hnone, hdice])
  | some digits =>
    by_cases hrule : rule = .number
    · subst hrule
      exact term_of_breaks_number start hbreaks
    have hnumber : ¬w.Breaks limits dice.toNat .number :=
      hfirst .number (by cases rule <;> simp_all [Rule.rank])
    obtain ⟨count, sides, hcount, hsides, hterm⟩ := term_eq_diceTerm start hw hnumber
    rw [hterm, Operand.diceTerm, token_placedAt, span_placedAt]
    cases rule with
    | number => exact absurd hbreaks hnumber
    | positive => exact if_pos ((breaks_positive_iff hw hcount hsides).mp hbreaks)
    | sides =>
      have hpositive := mt (breaks_positive_iff hw hcount hsides).mpr
        (hfirst .positive (by decide))
      rw [if_neg hpositive, (breaks_sides_iff hw hsides).mp hbreaks, Rule.rejection, hw, hsides]
      rfl
    | dice =>
      have hpositive := mt (breaks_positive_iff hw hcount hsides).mpr
        (hfirst .positive (by decide))
      have hdie := mt (breaks_sides_iff hw hsides).mpr (hfirst .sides (by decide))
      obtain ⟨dieSides, hdie⟩ := Option.ne_none_iff_exists'.mp hdie
      rw [if_neg hpositive, hdie]
      simp only [toNat_addSaturating_count hw hdice hcount hnumber]
      have hover : (narrow? count).filter (fun _ => dice.toNat + w.dice ≤ limits.maxDice) = none := by
        rw [Option.filter_eq_none_iff]
        intro _ _
        simpa [Breaks] using hbreaks
      rw [hover]
      rfl

/-- An operand that breaks no rule becomes the term that it stands for. -/
theorem exists_term_placedAt (start : Nat) (hdice : dice.toNat ≤ limits.maxDice)
    (h : ∀ rule, ¬w.Breaks limits dice.toNat rule) :
    ∃ term total, (w.placedAt start).term limits dice = .ok (term, total) ∧ w.Means term ∧
      total.toNat = dice.toNat + w.dice := by
  cases hw : w.sides? with
  | none =>
    obtain ⟨term, hterm, hmeans⟩ := term_of_constant start hw (h .number)
    exact ⟨term, dice, hterm, hmeans, by simp [Written.dice, hw]⟩
  | some digits =>
    obtain ⟨count, sides, hcount, hsides, hterm⟩ := term_eq_diceTerm start hw (h .number)
    have htotal := toNat_addSaturating_count hw hdice hcount (h .number)
    have hle : dice.toNat + w.dice ≤ limits.maxDice := Nat.not_lt.mp (h .dice)
    have hfits : count.toNat < UInt32.size := by
      have hmax := limits.maxDice_le
      have hsize : 100 < UInt32.size := by decide
      simp only [Written.dice, hw, Option.isSome_some, if_true, ← hcount] at hle
      omega
    obtain ⟨dieCount, hn⟩ := Option.ne_none_iff_exists'.mp
      (mt narrow?_eq_none_iff.mp (Nat.not_le.mpr hfits))
    obtain ⟨dieSides, hdie⟩ := Option.ne_none_iff_exists'.mp
      (mt (breaks_sides_iff hw hsides).mpr (h .sides))
    have hkept := narrow?_eq_some_iff.mp (Option.filter_eq_some_iff.mp hdie).1
    refine ⟨.dice w.sign dieCount dieSides w.token, addSaturating dice count, ?_, ?_, htotal⟩
    · rw [hterm, Operand.diceTerm, token_placedAt, span_placedAt,
        if_neg (mt (breaks_positive_iff hw hcount hsides).mpr (h .positive)), hdie]
      simp only [htotal, hn, Option.filter_some, hle, decide_true, if_true]
      rfl
    · exact ⟨rfl, (narrow?_eq_some_iff.mp hn).trans hcount, ⟨digits, hw, hkept.trans hsides⟩, rfl⟩

end Written

/-- A row answers with what its leftmost offender answers. -/
theorem FirstBreak.terms_placed {dice : UInt64} {ws front : List Written} {w : Written}
    {rule : Rule} (start : Nat) (hdice : dice.toNat ≤ limits.maxDice)
    (h : FirstBreak limits dice.toNat ws front w rule) :
    Operand.terms limits dice (placed start ws) =
      .error (rule.rejection limits (dice.toNat + diceOf front)
        (start + byteLength (rowText front)) w) := by
  obtain ⟨⟨back, rfl⟩, hbefore, hbreaks⟩ := h
  induction front generalizing dice start with
  | nil =>
    rw [List.nil_append, placed_cons, Operand.terms, hbreaks.term_placedAt start hdice]
    rfl
  | cons u front ih =>
    obtain ⟨hu, hfront⟩ := keepsRules_cons.mp hbefore
    obtain ⟨term, total, hterm, -, htotal⟩ := u.exists_term_placedAt start hdice hu
    have hle : total.toNat ≤ limits.maxDice := htotal ▸ Nat.not_lt.mp (hu .dice)
    rw [← htotal] at hfront
    rw [diceOf_cons, ← Nat.add_assoc, ← htotal] at hbreaks ⊢
    rw [List.cons_append, placed_cons, Operand.terms, hterm, rowText_cons, byteLength_append,
      ← Nat.add_assoc]
    show (do return term :: (← Operand.terms limits total (placed _ _))) = _
    rw [ih _ hle hfront hbreaks]
    rfl

/-- A row that keeps all rules becomes the terms that it stands for. -/
theorem exists_terms_placed {dice : UInt64} {ws : List Written} (start : Nat)
    (hdice : dice.toNat ≤ limits.maxDice) (h : KeepsRules limits dice.toNat ws) :
    ∃ terms, Operand.terms limits dice (placed start ws) = .ok terms ∧
      List.Forall₂ Written.Means ws terms := by
  induction ws generalizing dice start with
  | nil => exact ⟨[], rfl, .nil⟩
  | cons w ws ih =>
    obtain ⟨hw, hws⟩ := keepsRules_cons.mp h
    obtain ⟨term, total, hterm, hmeans, htotal⟩ := w.exists_term_placedAt start hdice hw
    have hle : total.toNat ≤ limits.maxDice := htotal ▸ Nat.not_lt.mp (hw .dice)
    rw [← htotal] at hws
    obtain ⟨terms, hterms, hall⟩ := ih _ hle hws
    refine ⟨term :: terms, ?_, .cons hmeans hall⟩
    rw [placed_cons, Operand.terms, hterm]
    show (do return term :: (← Operand.terms limits total (placed _ _))) = _
    rw [hterms]
    rfl

/-- The terms of a whole expression: nothing stands to the left of it. -/
theorem terms_placed_eq_ok_iff {ws : List Written} {terms : List Term} :
    Operand.terms limits 0 (placed 0 ws) = .ok terms ↔
      KeepsRules limits 0 ws ∧ List.Forall₂ Written.Means ws terms := by
  have hzero : (0 : UInt64).toNat ≤ limits.maxDice := Nat.zero_le _
  constructor
  · intro h
    obtain hkeeps | ⟨front, w, rule, hbreak⟩ := exists_firstBreak limits 0 ws
    · obtain ⟨terms', hterms, hall⟩ := exists_terms_placed 0 hzero hkeeps
      obtain rfl := Except.ok.inj (hterms.symm.trans h)
      exact ⟨hkeeps, hall⟩
    · have herror := FirstBreak.terms_placed 0 hzero hbreak
      cases herror.symm.trans h
  · rintro ⟨hkeeps, hall⟩
    obtain ⟨terms', hterms, hall'⟩ := exists_terms_placed 0 hzero hkeeps
    rw [hterms, Written.means_rightUnique.forall₂ hall hall']

/-- The operands are rejected by the first rule that is broken, at the operand that breaks it. -/
theorem terms_placed_eq_error_iff {ws : List Written} {rejection : Rejection} :
    Operand.terms limits 0 (placed 0 ws) = .error rejection ↔
      ∃ front w rule, FirstBreak limits 0 ws front w rule ∧
        rejection = rule.rejection limits (diceOf front) (byteLength (rowText front)) w := by
  have hzero : (0 : UInt64).toNat ≤ limits.maxDice := Nat.zero_le _
  have hbroken : ∀ {front w rule}, FirstBreak limits 0 ws front w rule →
      Operand.terms limits 0 (placed 0 ws) =
        .error (rule.rejection limits (diceOf front) (byteLength (rowText front)) w) := by
    intro front w rule hbreak
    have herror := FirstBreak.terms_placed 0 hzero hbreak
    simpa using herror
  constructor
  · intro h
    obtain hkeeps | ⟨front, w, rule, hbreak⟩ := exists_firstBreak limits 0 ws
    · obtain ⟨terms, hterms, -⟩ := exists_terms_placed 0 hzero hkeeps
      cases hterms.symm.trans h
    · exact ⟨front, w, rule, hbreak, Except.error.inj (h.symm.trans (hbroken hbreak))⟩
  · rintro ⟨front, w, rule, hbreak, rfl⟩
    exact hbroken hbreak

end FairDice
