import FairDice.Proofs.Bounds
import FairDice.Proofs.Draws
import FairDice.Proofs.Selection
import FairDice.Proofs.Totals

/-!
# What comes of evaluating an expression

An accepted expression is rolled as often as its mode asks for, and what is
rolled, added up and kept is said here in exact numbers; a rejected one is
answered without a look at the roller.
-/
namespace FairDice

namespace Evaluation

/-- The kept one is there: a mode asks for one set of rolls at least, and for two at most. -/
theorem selected_ofRollSets (expression : String) (mode : Mode) {sets : List RollSet}
    (hlength : sets.length = mode.rollCount) :
    let e := ofRollSets expression mode sets
    mode.Selects (sets.map fun set => set.total.toInt) e.selectedIndex.toNat ∧
      ∃ set, e.selected? = some set ∧ set.total = e.total := by
  have hle : mode.rollCount ≤ 2 := by cases mode <;> decide
  have hne : sets.map RollSet.total ≠ [] := by
    intro hnil
    have hpos := mode.rollCount_pos
    rw [List.map_eq_nil_iff.mp hnil, List.length_nil] at hlength
    omega
  obtain ⟨kept, hkeeps⟩ := mode.exists_keeps_select hne
  have hlt := hkeeps.lt_length
  rw [List.length_map] at hlt
  have hsize : 2 < UInt64.size := by decide
  have hindex : (ofRollSets expression mode sets).selectedIndex.toNat =
      mode.select (sets.map RollSet.total) := UInt64.toNat_ofNat_of_lt' (by omega)
  intro e
  constructor
  · rw [hindex]
    have hselects := hkeeps.selects
    rwa [List.map_map] at hselects
  · refine ⟨sets[mode.select (sets.map RollSet.total)], ?_, ?_⟩
    · rw [selected?, hindex]
      exact List.getElem?_eq_getElem hlt
    · simp [e, ofRollSets, hlt]

end Evaluation

namespace Roller

variable {σ : Type}

/-- What comes of one term, from the state `s` to the state `s'`. -/
inductive RollsTerm (roller : Roller σ) : Term → σ → TermRoll → σ → Prop
  | constant {sign : Sign} {value : UInt64} {raw : String} {total : Int64} {s : σ} :
    total.toInt = sign.factor * value.toNat →
      RollsTerm roller (.constant sign value raw) s ⟨raw, [], total⟩ s
  | dice {sign : Sign} {count sides : UInt32} {raw : String} {faces : List UInt32}
    {total : Int64} {s s' : σ} :
    Steps roller.DrawsFace (List.replicate count.toNat sides) s faces s' →
    total.toInt = sign.factor * faceTotal faces →
      RollsTerm roller (.dice sign count sides raw) s ⟨raw, faces, total⟩ s'

/-- What comes of all terms, from left to right. -/
structure RollsSet (roller : Roller σ) (terms : Terms) (s : σ) (set : RollSet) (s' : σ) :
    Prop where
  steps : Steps roller.RollsTerm terms.toList s set.terms s'
  total_eq : set.total.toInt = (set.terms.map fun roll => roll.total.toInt).sum

/-- What comes of an expression with these terms: one set of rolls after the other, and the one of
them that is kept. -/
structure Evaluates (roller : Roller σ) (expression : String) (mode : Mode) (terms : Terms)
    (s : σ) (e : Evaluation) (s' : σ) : Prop where
  expression_eq : e.expression = expression
  mode_eq : e.mode = mode
  length_eq : e.rollSets.length = mode.rollCount
  steps : Steps roller.RollsSet (List.replicate mode.rollCount terms) s e.rollSets s'
  selects : mode.Selects (e.rollSets.map fun set => set.total.toInt) e.selectedIndex.toNat
  selected : ∃ set, e.selected? = some set ∧ set.total = e.total

variable {roller : Roller σ} {limits : Limits} {r r' : Recorded σ}

/-- Where a roller starts from decides what comes of a term. -/
theorem RollsTerm.unique {term : Term} {roll other : TermRoll} {s s' s'' : σ}
    (h : roller.RollsTerm term s roll s') (h' : roller.RollsTerm term s other s'') :
    roll = other ∧ s' = s'' := by
  cases h with
  | constant htotal =>
    cases h' with
    | constant htotal' =>
      obtain rfl := Int64.toInt_inj.mp (htotal.trans htotal'.symm)
      exact ⟨rfl, rfl⟩
  | dice hsteps htotal =>
    cases h' with
    | dice hsteps' htotal' =>
      obtain ⟨rfl, rfl⟩ := hsteps.unique hsteps' DrawsFace.unique
      obtain rfl := Int64.toInt_inj.mp (htotal.trans htotal'.symm)
      exact ⟨rfl, rfl⟩

/-- A roll set is determined by the terms and the state it is rolled in. -/
theorem RollsSet.unique {terms : Terms} {set other : RollSet} {s s' s'' : σ}
    (h : roller.RollsSet terms s set s') (h' : roller.RollsSet terms s other s'') :
    set = other ∧ s' = s'' := by
  obtain ⟨rolls, total⟩ := set
  obtain ⟨rolls', total'⟩ := other
  obtain ⟨hrolls, rfl⟩ := h.steps.unique h'.steps RollsTerm.unique
  obtain rfl : rolls = rolls' := hrolls
  obtain rfl := Int64.toInt_inj.mp (h.total_eq.trans h'.total_eq.symm)
  exact ⟨rfl, rfl⟩

section

variable {expression : String} {mode : Mode} {terms : Terms} {e : Evaluation} {s s' : σ}

theorem Evaluates.getElem?_selectedIndex (h : roller.Evaluates expression mode terms s e s') :
    (e.rollSets.map fun set => set.total.toInt)[e.selectedIndex.toNat]? = some e.total.toInt := by
  obtain ⟨set, hset, htotal⟩ := h.selected
  rw [Evaluation.selected?] at hset
  rw [List.getElem?_map, hset, Option.map_some, htotal]

/-- The mode selects one set only, the one that is kept. -/
theorem Evaluates.selects_iff (h : roller.Evaluates expression mode terms s e s') {i : Nat} :
    mode.Selects (e.rollSets.map fun set => set.total.toInt) i ↔
      i = mode.select (e.rollSets.map RollSet.total) := by
  have hwords : e.rollSets.map (fun set => set.total.toInt) =
      (e.rollSets.map RollSet.total).map Int64.toInt := by
    rw [List.map_map]
    rfl
  have hne : e.rollSets.map RollSet.total ≠ [] := by
    have hpos := mode.rollCount_pos
    rw [← h.length_eq, ← List.length_map RollSet.total] at hpos
    exact List.length_pos_iff.mp hpos
  rw [hwords]
  exact Mode.selects_iff hne

/-- There is only one place that the mode selects. -/
theorem Evaluates.selectedIndex_eq (h : roller.Evaluates expression mode terms s e s') {i : Nat}
    (hi : mode.Selects (e.rollSets.map fun set => set.total.toInt) i) :
    e.selectedIndex.toNat = i :=
  (h.selects_iff.mp h.selects).trans (h.selects_iff.mp hi).symm

/-- Every roll set of an evaluation is one of its terms. -/
theorem Evaluates.exists_rollsSet (h : roller.Evaluates expression mode terms s e s') :
    ∀ set ∈ e.rollSets, ∃ t t', roller.RollsSet terms t set t' :=
  h.steps.forall_outcomes fun copy hcopy t _ t' hset => by
    rw [List.eq_of_mem_replicate hcopy] at hset
    exact ⟨t, t', hset⟩

end

/-- A term rolls no more dice than the limit. -/
theorem length_le_of_steps {sign : Sign} {count sides : UInt32} {raw : String}
    {faces : List UInt32} {s s' : σ} (hterm : (Term.dice sign count sides raw).Within limits)
    (h : Steps roller.DrawsFace (List.replicate count.toNat sides) s faces s') :
    faces.length ≤ 100 := by
  have hlength := h.length_eq
  rw [List.length_replicate] at hlength
  have hcount := hterm.2.1
  have hmax := limits.maxDice_le
  omega

/-- Whatever the faces, no term gets past the largest number. -/
theorem RollsTerm.natAbs_total_le {term : Term} {roll : TermRoll} {s s' : σ}
    (h : roller.RollsTerm term s roll s') (hterm : term.Within limits) :
    roll.total.toInt.natAbs ≤ maxValue := by
  cases h with
  | constant htotal =>
    rw [htotal, Sign.natAbs_factor_mul, Int.natAbs_natCast]
    exact hterm
  | dice hsteps htotal =>
    have hle := natAbs_faceTotal_le (length_le_of_steps hterm hsteps)
    have hmax : 100 * 2 ^ 32 < maxValue := by decide
    rw [htotal, Sign.natAbs_factor_mul]
    omega

/-- No rolled term exceeds the largest number a text can hold. -/
theorem natAbs_total_le_of_steps {terms : Terms} {rolls : List TermRoll} {s s' : σ}
    (hterms : terms.Within limits) (h : Steps roller.RollsTerm terms.toList s rolls s') :
    ∀ roll ∈ rolls, roll.total.toInt.natAbs ≤ maxValue :=
  h.forall_outcomes fun term hterm _ _ _ hroll => hroll.natAbs_total_le (hterms.within term hterm)

theorem length_rolls_le_of_steps {terms : Terms} {rolls : List TermRoll} {s s' : σ}
    (hterms : terms.Within limits) (h : Steps roller.RollsTerm terms.toList s rolls s') :
    rolls.length ≤ 20 := by
  rw [h.length_eq]
  exact hterms.length_le.trans limits.maxTerms_le

/-- A run of a term within the limits draws its dice in order and adds them up exactly. -/
theorem rollsTerm_of_run {term : Term} {roll : TermRoll} (hterm : term.Within limits)
    (h : (roller.rollTerm term).run r = .ok roll r') :
    roller.RollsTerm term r.state roll r'.state := by
  cases term with
  | constant sign value raw =>
    rw [run_rollTerm_constant] at h
    cases h
    exact .constant (TermRoll.toInt_total_ofConstant sign raw hterm)
  | dice sign count sides raw =>
    rw [run_rollTerm_dice] at h
    cases hfaces : (roller.faces sides count.toNat).run r with
    | error fault middle =>
      rw [hfaces] at h
      cases h
    | ok faces middle =>
      rw [hfaces] at h
      cases h
      have hsteps := steps_of_run_faces hfaces
      exact .dice hsteps (TermRoll.toInt_total_ofFaces sign raw (length_le_of_steps hterm hsteps))

/-- A run of terms within the limits rolls them in order and adds them up exactly. -/
theorem rollsSet_of_run {terms : Terms} {set : RollSet} (hterms : terms.Within limits)
    (h : (roller.roll terms).run r = .ok set r') : roller.RollsSet terms r.state set r'.state := by
  obtain ⟨rolls, middle, hrolls, h⟩ := run_bind_eq_ok_iff.mp h
  obtain ⟨rfl, rfl⟩ := run_pure_eq_ok_iff.mp h
  have hsteps : Steps roller.RollsTerm terms.toList r.state rolls middle.state :=
    steps_of_run_mapM (fun term hterm _ _ _ hrun =>
      rollsTerm_of_run (hterms.within term hterm) hrun) hrolls
  have htotals := natAbs_total_le_of_steps hterms hsteps
  have hlength := length_rolls_le_of_steps hterms hsteps
  exact ⟨hsteps, (RollSet.toInt_total_ofTerms htotals hlength).1⟩

/-- A run of the rolling part keeps the right set out of those it rolls. -/
theorem evaluates_of_run {expression : String} {mode : Mode} {terms : Terms} {e : Evaluation}
    (hterms : terms.Within limits)
    (h : (roller.evaluateTerms expression mode terms).run r = .ok e r') :
    roller.Evaluates expression mode terms r.state e r'.state := by
  obtain ⟨sets, middle, hsets, h⟩ := run_bind_eq_ok_iff.mp h
  obtain ⟨_, last, hlog, h⟩ := run_bind_eq_ok_iff.mp h
  obtain ⟨rfl, rfl⟩ := run_pure_eq_ok_iff.mp h
  cases hlog
  rw [rollTimes_eq_mapM] at hsets
  have hsteps : Steps roller.RollsSet (List.replicate mode.rollCount terms) r.state sets
      middle.state := by
    refine steps_of_run_mapM (fun _ hmem _ _ _ hrun => ?_) hsets
    rw [List.eq_of_mem_replicate hmem] at hrun ⊢
    exact rollsSet_of_run hterms hrun
  have hlength : sets.length = mode.rollCount := by
    rw [hsteps.length_eq, List.length_replicate]
  obtain ⟨hselects, hselected⟩ := Evaluation.selected_ofRollSets expression mode hlength
  exact ⟨rfl, rfl, hlength, hsteps, hselects, hselected⟩

/-- Only an accepted expression comes to an evaluation. -/
theorem evaluates_of_run_evaluate {expression : String} {mode : Mode} {e : Evaluation}
    (h : (roller.evaluate limits mode expression).run r = .ok (.ok e) r') :
    ∃ terms, Terms.parse limits expression = .ok terms ∧
      roller.Evaluates expression mode terms r.state e r'.state := by
  obtain ⟨parsed, middle, hparsed, h⟩ := run_bind_eq_ok_iff.mp h
  cases hparsed
  cases hparse : Terms.parse limits expression with
  | error rejection =>
    rw [hparse] at h
    cases h
  | ok terms =>
    rw [hparse] at h
    obtain ⟨e', last, hterms, h⟩ := run_bind_eq_ok_iff.mp h
    obtain ⟨heq, rfl⟩ := run_pure_eq_ok_iff.mp h
    obtain rfl := Except.ok.inj heq
    have hevaluates := evaluates_of_run (Terms.within_of_parse hparse) hterms
    exact ⟨terms, rfl, hevaluates⟩

/-- A term within the limits is answered, since all its dice have a side. -/
theorem AnswersDice.answers_rollTerm (h : roller.AnswersDice) {term : Term}
    (hterm : term.Within limits) : Answers (roller.rollTerm term) := by
  cases term with
  | constant sign value raw => exact .pure _
  | dice sign count sides raw =>
    have hface : ∀ die ∈ List.replicate count.toNat sides, Answers (roller.face die) := by
      intro die hdie
      rw [List.eq_of_mem_replicate hdie]
      exact h.answers_face hterm.2.2.1
    rw [rollTerm, faces_eq_mapM]
    exact .bind (.mapM hface) fun _ => .bind (.writeLog _) fun _ => .pure _

/-- The dice of accepted terms have sides, so a roller that answers those answers all of them. -/
theorem AnswersDice.answers_roll (h : roller.AnswersDice) {terms : Terms}
    (hterms : terms.Within limits) : Answers (roller.roll terms) :=
  .bind (.mapM fun term hterm => h.answers_rollTerm (hterms.within term hterm)) fun _ => .pure _

theorem AnswersDice.answers_evaluateTerms (h : roller.AnswersDice) {terms : Terms}
    (hterms : terms.Within limits) (expression : String) (mode : Mode) :
    Answers (roller.evaluateTerms expression mode terms) := by
  have hroll : ∀ copy ∈ List.replicate mode.rollCount terms, Answers (roller.roll copy) := by
    intro copy hcopy
    rw [List.eq_of_mem_replicate hcopy]
    exact h.answers_roll hterms
  rw [evaluateTerms, rollTimes_eq_mapM]
  exact .bind (.mapM hroll) fun _ => .bind (.writeLog _) fun _ => .pure _

end Roller
end FairDice
