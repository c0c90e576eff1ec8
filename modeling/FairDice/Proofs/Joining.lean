import FairDice.Proofs.Evaluating
import FairDice.Proofs.Rolling

/-!
# Expressions one behind the other

If an operator stands at the seam, the terms of the whole are those of its parts
in a row, and only the limits on all terms and all dice together have a say in
whether it is accepted; and an accepted expression may be cut in front of any
operator but a first one. Rolling the whole is rolling one part after the other.
-/
namespace FairDice

/-- The terms of one expression and behind them those of another. -/
instance : Append Terms := ⟨fun front back => ⟨front.toList ++ back.toList⟩⟩

@[simp] theorem Terms.toList_append (front back : Terms) :
    (front ++ back).toList = front.toList ++ back.toList := rfl

variable {ws vs : List Written} {s t : List Char} {limits : Limits}

/-- Behind an operator at the seam there are only operands with an operator. -/
theorem Writes.forall_signed (h : Writes ws s) (hs : s.head?.any isOperator) :
    ∀ w ∈ ws, w.sign?.isSome := by
  obtain ⟨hne, hrow, rfl⟩ := h
  obtain ⟨w, ws, rfl⟩ := List.exists_cons_of_ne_nil hne
  have hw := hrow.wellFormed w List.mem_cons_self
  rw [rowText_cons, List.head?_append_of_ne_nil _ hw.text_ne_nil, hw.isOperator_head?] at hs
  exact List.forall_mem_cons.mpr ⟨hs, hrow.signed⟩

/-- Rows join to a row, as long as an operator stands between them. -/
theorem Writes.append (hws : Writes ws s) (hvs : Writes vs t) (ht : t.head?.any isOperator) :
    Writes (ws ++ vs) (s ++ t) := by
  refine ⟨List.append_ne_nil_of_left_ne_nil hws.ne_nil vs, ⟨?_, ?_⟩, ?_⟩
  · exact List.forall_mem_append.mpr ⟨hws.row.wellFormed, hvs.row.wellFormed⟩
  · rw [List.tail_append_of_ne_nil hws.ne_nil]
    exact List.forall_mem_append.mpr ⟨hws.row.signed, hvs.forall_signed ht⟩
  · rw [rowText_append, hws.text, hvs.text]

/-- An operator stands at the front of an operand and nowhere else, so that in front of one the
operands come apart. -/
theorem exists_rows_of_rowText_eq_append (h : ∀ w ∈ ws, w.IsWellFormed)
    (htext : rowText ws = s ++ t) (ht : t.head?.any isOperator) :
    ∃ us vs, ws = us ++ vs ∧ rowText us = s ∧ rowText vs = t := by
  induction ws generalizing s with
  | nil =>
    obtain ⟨-, rfl⟩ := List.append_eq_nil_iff.mp htext.symm
    cases ht
  | cons w ws ih =>
    rw [List.forall_mem_cons] at h
    by_cases hs : s = []
    · exact ⟨[], w :: ws, rfl, by simp [hs], by simpa [hs] using htext⟩
    rw [rowText_cons] at htext
    rcases List.append_eq_append_iff.mp htext with ⟨rest, rfl, hrest⟩ | ⟨rest, hw, rfl⟩
    · obtain ⟨us, vs, rfl, rfl, rfl⟩ := ih h.2 hrest
      exact ⟨w :: us, vs, rfl, rfl, rfl⟩
    · cases rest with
      | nil => exact ⟨[w], ws, rfl, by simpa using hw, rfl⟩
      | cons c rest =>
        have hmem : c ∈ w.text.tail := by
          rw [hw, List.tail_append_of_ne_nil hs]
          exact List.mem_append_right _ List.mem_cons_self
        have hc := h.1.isOperator_tail c hmem
        simp [hc] at ht

/-- Cutting in front of an operator cuts between operands. -/
theorem Writes.exists_split (h : Writes ws (s ++ t)) (hs : s ≠ []) (ht : t.head?.any isOperator) :
    ∃ us vs, ws = us ++ vs ∧ Writes us s ∧ Writes vs t := by
  obtain ⟨-, hrow, htext⟩ := h
  obtain ⟨us, vs, rfl, rfl, rfl⟩ := exists_rows_of_rowText_eq_append hrow.wellFormed htext ht
  have hus : us ≠ [] := by
    rintro rfl
    exact hs rfl
  have hvs : vs ≠ [] := by
    rintro rfl
    cases ht
  obtain ⟨hwellFormed, hsigned⟩ := hrow
  rw [List.forall_mem_append] at hwellFormed
  rw [List.tail_append_of_ne_nil hus, List.forall_mem_append] at hsigned
  refine ⟨us, vs, rfl, ⟨hus, ⟨hwellFormed.1, hsigned.1⟩, rfl⟩, hvs, ⟨hwellFormed.2, ?_⟩, rfl⟩
  exact fun v hv => hsigned.2 v (List.mem_of_mem_tail hv)

@[simp] theorem diceOf_append (ws vs : List Written) : diceOf (ws ++ vs) = diceOf ws + diceOf vs := by
  simp [diceOf]

/-- What an operand has to keep by itself does not change at the seam; what is counted adds up. -/
theorem acceptable_append_iff :
    Acceptable limits (ws ++ vs) ↔
      Acceptable limits ws ∧ Acceptable limits vs ∧ ws.length + vs.length ≤ limits.maxTerms ∧
        diceOf ws + diceOf vs ≤ limits.maxDice := by
  constructor
  · rintro ⟨hlength, hfits, hdice⟩
    rw [List.length_append] at hlength
    rw [List.forall_mem_append] at hfits
    rw [diceOf_append] at hdice
    exact ⟨⟨by omega, hfits.1, by omega⟩, ⟨by omega, hfits.2, by omega⟩, hlength, hdice⟩
  · rintro ⟨hws, hvs, hlength, hdice⟩
    refine ⟨?_, List.forall_mem_append.mpr ⟨hws.fits, hvs.fits⟩, ?_⟩
    · rwa [List.length_append]
    · rwa [diceOf_append]

namespace Terms

variable {front back : Terms}

/-- A row that the limits allow is read as terms. -/
theorem exists_ofExpression (hws : Writes ws s) (h : Acceptable limits ws) :
    ∃ terms, ofExpression limits s = .ok terms ∧ List.Forall₂ Written.Means ws terms.toList := by
  have hzero : (0 : UInt64).toNat ≤ limits.maxDice := Nat.zero_le _
  obtain ⟨terms, -, hmeans⟩ := exists_terms_placed 0 hzero (acceptable_iff.mp h).2
  exact ⟨⟨terms⟩, ofExpression_eq_ok_iff.mpr ⟨ws, hws, h, hmeans⟩, hmeans⟩

theorem toNat_diceCount_eq_diceOf (hmeans : List.Forall₂ Written.Means ws front.toList)
    (h : Acceptable limits ws) : front.diceCount.toNat = diceOf ws := by
  have hsum := diceCount_eq_diceOf hmeans
  have hsize : 100 < UInt32.size := by decide
  have hle := h.dice_le.trans limits.maxDice_le
  rw [toNat_diceCount_eq_sum (by omega), hsum]

/-- Expressions in a row come to their terms in a row, or exceed a limit. -/
theorem ofExpression_append_eq_ok_iff {terms : Terms} (hs : ofExpression limits s = .ok front)
    (ht : ofExpression limits t = .ok back) (hoperator : t.head?.any isOperator) :
    ofExpression limits (s ++ t) = .ok terms ↔
      front.length + back.length ≤ limits.maxTerms ∧
        front.diceCount.toNat + back.diceCount.toNat ≤ limits.maxDice ∧
        terms = front ++ back := by
  obtain ⟨ws, hws, hfront, hmeans⟩ := ofExpression_eq_ok_iff.mp hs
  obtain ⟨vs, hvs, hback, hmeans'⟩ := ofExpression_eq_ok_iff.mp ht
  have hwhole := hws.append hvs hoperator
  have hall : List.Forall₂ Written.Means (ws ++ vs) (front ++ back).toList :=
    List.rel_append hmeans hmeans'
  rw [toNat_diceCount_eq_diceOf hmeans hfront, toNat_diceCount_eq_diceOf hmeans' hback, length,
    length, ← hmeans.length_eq, ← hmeans'.length_eq]
  constructor
  · intro h
    obtain ⟨us, hus, hacceptable, hterms⟩ := ofExpression_eq_ok_iff.mp h
    obtain rfl := hus.unique hwhole
    obtain ⟨-, -, hlength, hdice⟩ := acceptable_append_iff.mp hacceptable
    exact ⟨hlength, hdice, congrArg Terms.mk (Written.means_rightUnique.forall₂ hterms hall)⟩
  · rintro ⟨hlength, hdice, rfl⟩
    have hacceptable := acceptable_append_iff.mpr ⟨hfront, hback, hlength, hdice⟩
    exact ofExpression_eq_ok_iff.mpr ⟨_, hwhole, hacceptable, hall⟩

/-- The parts of an accepted expression, cut in front of an operator, are accepted as well. -/
theorem exists_ofExpression_of_append {terms : Terms}
    (h : ofExpression limits (s ++ t) = .ok terms) (hs : s ≠ []) (ht : t.head?.any isOperator) :
    ∃ front back, ofExpression limits s = .ok front ∧ ofExpression limits t = .ok back ∧
      terms = front ++ back := by
  obtain ⟨ws, hws, hacceptable, -⟩ := ofExpression_eq_ok_iff.mp h
  obtain ⟨us, vs, rfl, hus, hvs⟩ := hws.exists_split hs ht
  obtain ⟨hfront, hback, -, -⟩ := acceptable_append_iff.mp hacceptable
  obtain ⟨front, hfront, -⟩ := exists_ofExpression hus hfront
  obtain ⟨back, hback, -⟩ := exists_ofExpression hvs hback
  obtain ⟨-, -, rfl⟩ := (ofExpression_append_eq_ok_iff hfront hback ht).mp h
  exact ⟨front, back, hfront, hback, rfl⟩

end Terms

/-- A part of a text without blanks holds none either. -/
theorem stripBlanks_eq_self_of_append {input : List Char} (h : stripBlanks input = s ++ t) :
    stripBlanks s = s ∧ stripBlanks t = t := by
  have hkept : ∀ c ∈ s ++ t, isBlank c = false := by
    intro c hc
    rw [← h] at hc
    exact isBlank_of_mem_stripBlanks hc
  rw [List.forall_mem_append] at hkept
  constructor
  · exact List.filter_eq_self.mpr fun c hc => by simp [hkept.1 c hc]
  · exact List.filter_eq_self.mpr fun c hc => by simp [hkept.2 c hc]

namespace Roller

variable {σ : Type} {roller : Roller σ}

/-- Terms in a row are rolled one part after the other. -/
theorem roll_append (roller : Roller σ) (front back : Terms) :
    roller.roll (front ++ back) = do
      let first ← roller.roll front
      let second ← roller.roll back
      return .ofTerms (first.terms ++ second.terms) := by
  simp [roll, RollSet.ofTerms]

/-- Even twice as many terms as may be accepted add up exactly. -/
theorem toInt_total_ofTerms_append {front back : Terms} {first second : RollSet}
    {s middle s' : σ} (hfront : front.Within limits) (hback : back.Within limits)
    (hfirst : roller.RollsSet front s first middle)
    (hsecond : roller.RollsSet back middle second s') :
    (RollSet.ofTerms (first.terms ++ second.terms)).total.toInt =
      first.total.toInt + second.total.toInt := by
  have hrolls : ∀ roll ∈ first.terms ++ second.terms, roll.total.toInt.natAbs ≤ maxValue :=
    List.forall_mem_append.mpr
      ⟨natAbs_total_le_of_steps hfront hfirst.steps, natAbs_total_le_of_steps hback hsecond.steps⟩
  have hwords : ∀ word ∈ (first.terms ++ second.terms).map TermRoll.total,
      word.toInt.natAbs ≤ maxValue := by
    intro word hword
    obtain ⟨roll, hroll, rfl⟩ := List.mem_map.mp hword
    exact hrolls roll hroll
  have hlength : ((first.terms ++ second.terms).map TermRoll.total).length ≤ 40 := by
    have hfirst_le := length_rolls_le_of_steps hfront hfirst.steps
    have hsecond_le := length_rolls_le_of_steps hback hsecond.steps
    rw [List.length_map, List.length_append]
    omega
  have hmax : 40 * maxValue < 2 ^ 63 := by decide
  have hle := Nat.mul_le_mul_right maxValue hlength
  obtain ⟨hsum, -⟩ := toInt_sum hwords (by omega)
  rw [RollSet.ofTerms, hsum, hfirst.total_eq, hsecond.total_eq, List.map_map, List.map_append,
    List.sum_append]
  rfl

/-- Rolling accepted terms in a row gives the rolls of both parts, and adds up their totals. -/
theorem run_roll_append {front back : Terms} {first second : RollSet} {r middle r' : Recorded σ}
    (hfront : front.Within limits) (hback : back.Within limits)
    (hfirst : (roller.roll front).run r = .ok first middle)
    (hsecond : (roller.roll back).run middle = .ok second r') :
    ∃ whole, (roller.roll (front ++ back)).run r = .ok whole r' ∧
      whole = .ofTerms (first.terms ++ second.terms) ∧
      whole.total.toInt = first.total.toInt + second.total.toInt := by
  refine ⟨_, ?_, rfl, ?_⟩
  · rw [roll_append]
    refine run_bind_eq_ok_iff.mpr ⟨first, middle, hfirst, ?_⟩
    exact run_bind_eq_ok_iff.mpr ⟨second, r', hsecond, rfl⟩
  · exact toInt_total_ofTerms_append hfront hback (rollsSet_of_run hfront hfirst)
      (rollsSet_of_run hback hsecond)

end Roller

/-- Where an operator follows the seam, two accepted expressions in a row are accepted exactly when
the limits allow all their terms and dice, and come to the terms of both; an accepted expression can
be cut so in front of each operator but a first one. Rolling the terms in a row is rolling both
parts in turn. -/
theorem expressions_compose {σ : Type} (roller : Roller σ) (limits : Limits) :
    (∀ a b front back, Terms.parse limits a = .ok front → Terms.parse limits b = .ok back →
      (stripBlanks b.toList).head?.any isOperator →
      ∀ terms, Terms.parse limits (a ++ b) = .ok terms ↔
        front.length + back.length ≤ limits.maxTerms ∧
          front.diceCount.toNat + back.diceCount.toNat ≤ limits.maxDice ∧
          terms = front ++ back) ∧
    (∀ input terms s t, Terms.parse limits input = .ok terms →
      stripBlanks input.toList = s ++ t → s ≠ [] → t.head?.any isOperator →
      ∃ front back, Terms.parse limits (String.ofList s) = .ok front ∧
        Terms.parse limits (String.ofList t) = .ok back ∧ terms = front ++ back) ∧
    (∀ front back : Terms, roller.roll (front ++ back) = do
      let first ← roller.roll front
      let second ← roller.roll back
      return .ofTerms (first.terms ++ second.terms)) ∧
    ∀ a b front back, Terms.parse limits a = .ok front → Terms.parse limits b = .ok back →
      ∀ r first middle second r', (roller.roll front).run r = .ok first middle →
        (roller.roll back).run middle = .ok second r' →
        ∃ whole, (roller.roll (front ++ back)).run r = .ok whole r' ∧
          whole = .ofTerms (first.terms ++ second.terms) ∧
          whole.total.toInt = first.total.toInt + second.total.toInt := by
  refine ⟨?_, ?_, roller.roll_append, ?_⟩
  · intro a b front back ha hb hoperator terms
    rw [Terms.parse, String.toList_append, stripBlanks_append]
    exact Terms.ofExpression_append_eq_ok_iff ha hb hoperator
  · intro input terms s t h hcut hs ht
    obtain ⟨hfront, hback⟩ := stripBlanks_eq_self_of_append hcut
    rw [Terms.parse, hcut] at h
    simp only [Terms.parse, String.toList_ofList, hfront, hback]
    exact Terms.exists_ofExpression_of_append h hs ht
  · intro a b front back ha hb r first middle second r' hfirst hsecond
    exact Roller.run_roll_append (Terms.within_of_parse ha) (Terms.within_of_parse hb) hfirst
      hsecond

/-- Two parts that use up the limit on dice together, cut again in front of the second operator. -/
theorem expressions_compose_dice_at_limit :
    let limits := Limits.default.withMaxDice 3
    let front : Terms := ⟨[.dice .plus 2 6 "2d6"]⟩
    let back : Terms := ⟨[.dice .minus 1 4 "-1d4", .constant .plus 3 "+3"]⟩
    let start : Recorded DieSource := ⟨.faces [6, 5, 2, 1], []⟩
    Terms.parse limits "2 d6" = .ok front ∧ Terms.parse limits " - 1d4+3" = .ok back ∧
      Terms.parse limits ("2 d6" ++ " - 1d4+3") = .ok (front ++ back) ∧
      (∃ first second, Terms.parse limits (String.ofList "2d6-1d4".toList) = .ok first ∧
        Terms.parse limits (String.ofList "+3".toList) = .ok second ∧
        front ++ back = first ++ second) ∧
      ∃ whole r', (DieSource.roller.roll (front ++ back)).run start = .ok whole r' ∧
        whole.total.toInt = 11 + 1 ∧ r'.state = .faces [1] := by
  intro limits front back start
  have hfront : Terms.parse limits "2 d6" = .ok front := by decide
  have hback : Terms.parse limits " - 1d4+3" = .ok back := by decide
  have hoperator : (stripBlanks " - 1d4+3".toList).head?.any isOperator := by decide
  have hlength : front.length + back.length ≤ limits.maxTerms := by decide
  have hdice : front.diceCount.toNat + back.diceCount.toNat ≤ limits.maxDice := by decide
  obtain ⟨hjoin, hcut, -, hroll⟩ := expressions_compose DieSource.roller limits
  have hwhole := (hjoin _ _ _ _ hfront hback hoperator _).mpr ⟨hlength, hdice, rfl⟩
  refine ⟨hfront, hback, hwhole, ?_, ?_⟩
  · exact hcut _ _ "2d6-1d4".toList "+3".toList hwhole (by decide) (by decide) (by decide)
  · obtain ⟨whole, hrun, -, htotal⟩ := hroll _ _ _ _ hfront hback start _ _ _ _ rfl rfl
    exact ⟨whole, _, hrun, htotal, rfl⟩

end FairDice
