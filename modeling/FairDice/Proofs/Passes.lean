import FairDice.Proofs.Rolling

/-!
# All modes on one stream of draws

Normal mode makes one pass through the terms, the two others make a second one
from where the first has left the roller. The passes themselves do not depend on
the mode, nor on what is in the log: the mode only decides which of them is kept.
-/
namespace FairDice

namespace Mode

theorem dieSides_normal (terms : Terms) : normal.dieSides terms = terms.dieSides := by
  simp [dieSides, rollCount]

theorem dieSides_advantage (terms : Terms) :
    advantage.dieSides terms = terms.dieSides ++ terms.dieSides := by
  simp [dieSides, rollCount, List.replicate_succ]

end Mode

/-- What the modes keep of two passes. -/
structure KeepsOfPasses (first second : RollSet) (normal advantage disadvantage : Evaluation) :
    Prop where
  normal_sets : normal.rollSets = [first]
  advantage_sets : advantage.rollSets = [first, second]
  disadvantage_sets : disadvantage.rollSets = [first, second]
  disadvantage_le_normal : disadvantage.total.toInt ≤ normal.total.toInt
  normal_le_advantage : normal.total.toInt ≤ advantage.total.toInt
  advantage_total : advantage.total.toInt = max first.total.toInt second.total.toInt
  disadvantage_total : disadvantage.total.toInt = min first.total.toInt second.total.toInt
  total_add : advantage.total.toInt + disadvantage.total.toInt =
    first.total.toInt + second.total.toInt
  index_ne_iff : advantage.selectedIndex ≠ disadvantage.selectedIndex ↔
    first.total ≠ second.total
  index_of_eq : first.total = second.total →
    advantage.selectedIndex = 0 ∧ disadvantage.selectedIndex = 0

namespace Roller

variable {σ : Type} {roller : Roller σ} {expression : String} {mode : Mode} {terms : Terms}
  {first second : RollSet} {e normal advantage disadvantage : Evaluation} {s middle s' last : σ}

/-- An evaluation in normal mode is one pass. -/
theorem Evaluates.normal_eq (h : roller.Evaluates expression .normal terms s e last)
    (hfirst : roller.RollsSet terms s first middle) :
    e.rollSets = [first] ∧ e.total = first.total := by
  have hsteps : Steps roller.RollsSet [terms] s [first] middle := .cons hfirst (.nil _)
  obtain ⟨hsets, -⟩ := h.steps.unique hsteps RollsSet.unique
  obtain ⟨set, hset, htotal⟩ := h.selected
  have hindex : e.selectedIndex.toNat = 0 := h.selects
  rw [Evaluation.selected?, hsets, hindex] at hset
  cases hset
  exact ⟨hsets, htotal.symm⟩

/-- An evaluation that rolls twice makes both passes. -/
theorem Evaluates.rollSets_eq_pair (h : roller.Evaluates expression mode terms s e last)
    (hcount : mode.rollCount = 2) (hfirst : roller.RollsSet terms s first middle)
    (hsecond : roller.RollsSet terms middle second s') : e.rollSets = [first, second] := by
  have hsteps : Steps roller.RollsSet (List.replicate 2 terms) s [first, second] s' :=
    .cons hfirst (.cons hsecond (.nil _))
  rw [← hcount] at hsteps
  exact (h.steps.unique hsteps RollsSet.unique).1

/-- Of two passes the second is kept if its total is strictly better. -/
theorem Evaluates.kept_of_pair (h : roller.Evaluates expression mode terms s e last)
    (hsets : e.rollSets = [first, second]) :
    mode.IsBetter second.total.toInt first.total.toInt ∧
        e.selectedIndex = 1 ∧ e.total = second.total ∨
      ¬mode.IsBetter second.total.toInt first.total.toInt ∧
        e.selectedIndex = 0 ∧ e.total = first.total := by
  have hselects := h.selects
  obtain ⟨set, hset, htotal⟩ := h.selected
  rw [hsets] at hselects
  have hindex := Mode.selects_pair_iff.mp hselects
  rw [Evaluation.selected?, hsets, hindex] at hset
  by_cases hbetter : mode.IsBetter second.total.toInt first.total.toInt
  · rw [if_pos hbetter] at hset hindex
    cases hset
    exact .inl ⟨hbetter, UInt64.toNat_inj.mp hindex, htotal.symm⟩
  · rw [if_neg hbetter] at hset hindex
    cases hset
    exact .inr ⟨hbetter, UInt64.toNat_inj.mp hindex, htotal.symm⟩

/-- The three modes keep the first, the higher and the lower of the same two sets. -/
theorem keepsOfPasses {n a d : σ} (hfirst : roller.RollsSet terms s first middle)
    (hsecond : roller.RollsSet terms middle second s')
    (hnormal : roller.Evaluates expression .normal terms s normal n)
    (hadvantage : roller.Evaluates expression .advantage terms s advantage a)
    (hdisadvantage : roller.Evaluates expression .disadvantage terms s disadvantage d) :
    KeepsOfPasses first second normal advantage disadvantage := by
  obtain ⟨hnormalSets, hnormalTotal⟩ := hnormal.normal_eq hfirst
  have hadvantageSets := hadvantage.rollSets_eq_pair rfl hfirst hsecond
  have hdisadvantageSets := hdisadvantage.rollSets_eq_pair rfl hfirst hsecond
  have hkept := hadvantage.kept_of_pair hadvantageSets
  have hkept' := hdisadvantage.kept_of_pair hdisadvantageSets
  simp only [Mode.IsBetter] at hkept hkept'
  have hgreater : advantage.total.toInt = max first.total.toInt second.total.toInt := by
    rcases hkept with ⟨_, -, htotal⟩ | ⟨_, -, htotal⟩ <;> rw [htotal] <;> omega
  have hless : disadvantage.total.toInt = min first.total.toInt second.total.toInt := by
    rcases hkept' with ⟨_, -, htotal⟩ | ⟨_, -, htotal⟩ <;> rw [htotal] <;> omega
  constructor
  case normal_sets => exact hnormalSets
  case advantage_sets => exact hadvantageSets
  case disadvantage_sets => exact hdisadvantageSets
  case disadvantage_le_normal =>
    rw [hnormalTotal]
    omega
  case normal_le_advantage =>
    rw [hnormalTotal]
    omega
  case advantage_total => exact hgreater
  case disadvantage_total => exact hless
  case total_add => omega
  case index_ne_iff =>
    rw [Ne, Ne, ← Int64.toInt_inj]
    rcases hkept with ⟨hlt, hindex, -⟩ | ⟨hle, hindex, -⟩ <;>
      rcases hkept' with ⟨hlt', hindex', -⟩ | ⟨hle', hindex', -⟩ <;>
      simp only [hindex, hindex'] <;> simp <;> omega
  case index_of_eq =>
    intro heq
    rw [heq] at hkept hkept'
    simp only [Int.lt_irrefl, false_and, false_or, not_false_eq_true, true_and] at hkept hkept'
    exact ⟨hkept.1, hkept'.1⟩

end Roller

variable {σ : Type}

/-- Where a roller can serve two passes through the terms of an accepted expression, it serves them
alike in all modes. Normal mode makes the first and leaves the roller where the second begins; the
two other modes make both, and keep the greater total and the lesser. -/
theorem modes_share_draws (roller : Roller σ) (limits : Limits) (expression : String)
    (terms : Terms) (hparse : Terms.parse limits expression = .ok terms) (s : σ)
    (hserves : ∃ faces s', (roller.draw (Mode.advantage.dieSides terms)).run s = .ok faces s') :
    ∃ first second middle s',
      (∀ log, ∃ log', (roller.roll terms).run ⟨s, log⟩ = .ok first ⟨middle, log'⟩) ∧
      (∀ log, ∃ log', (roller.roll terms).run ⟨middle, log⟩ = .ok second ⟨s', log'⟩) ∧
      ∀ log₁ log₂ log₃, ∃ normal advantage disadvantage log₁' log₂' log₃',
        (roller.evaluate limits .normal expression).run ⟨s, log₁⟩ =
          .ok (.ok normal) ⟨middle, log₁'⟩ ∧
        (roller.evaluate limits .advantage expression).run ⟨s, log₂⟩ =
          .ok (.ok advantage) ⟨s', log₂'⟩ ∧
        (roller.evaluate limits .disadvantage expression).run ⟨s, log₃⟩ =
          .ok (.ok disadvantage) ⟨s', log₃'⟩ ∧
        KeepsOfPasses first second normal advantage disadvantage := by
  have hwithin := Terms.within_of_parse hparse
  obtain ⟨faces, s', hdraw⟩ := hserves
  have hpasses := hdraw
  rw [Mode.dieSides_advantage] at hpasses
  obtain ⟨front, back, middle, hfront, hback⟩ := Roller.exists_of_run_draw_append hpasses
  obtain ⟨first, hfirst, hrun⟩ := Roller.exists_run_roll hwithin hfront
  obtain ⟨second, hsecond, hrun'⟩ := Roller.exists_run_roll hwithin hback
  refine ⟨first, second, middle, s', hrun, hrun', ?_⟩
  intro log₁ log₂ log₃
  have hdraw' : (roller.draw (Mode.disadvantage.dieSides terms)).run s = .ok faces s' := hdraw
  rw [← Mode.dieSides_normal] at hfront
  obtain ⟨normal, log₁', hn, hnormal⟩ := Roller.exists_run_evaluate hparse hfront log₁
  obtain ⟨advantage, log₂', ha, hadvantage⟩ := Roller.exists_run_evaluate hparse hdraw log₂
  obtain ⟨disadvantage, log₃', hd, hdisadvantage⟩ :=
    Roller.exists_run_evaluate hparse hdraw' log₃
  exact ⟨normal, advantage, disadvantage, log₁', log₂', log₃', hn, ha, hd,
    Roller.keepsOfPasses hfirst hsecond hnormal hadvantage hdisadvantage⟩

/-- A second pass that comes out higher, and a face that is left to the next expression. -/
theorem modes_share_draws_second_higher :
    let terms : Terms := ⟨[.dice .plus 1 20 "1d20", .constant .plus 1 "+1"]⟩
    let first : RollSet := ⟨[⟨"1d20", [3], 3⟩, ⟨"+1", [], 1⟩], 4⟩
    let second : RollSet := ⟨[⟨"1d20", [18], 18⟩, ⟨"+1", [], 1⟩], 19⟩
    let start : Recorded DieSource := ⟨.faces [3, 18, 7], []⟩
    Terms.parse .default "1d20+1" = .ok terms ∧
      (DieSource.roller.draw (Mode.advantage.dieSides terms)).run start.state =
        .ok [3, 18] (.faces [7]) ∧
      ∃ normal advantage disadvantage log₁ log₂ log₃,
        (DieSource.roller.evaluate .default .normal "1d20+1").run start =
          .ok (.ok normal) ⟨.faces [18, 7], log₁⟩ ∧
        (DieSource.roller.evaluate .default .advantage "1d20+1").run start =
          .ok (.ok advantage) ⟨.faces [7], log₂⟩ ∧
        (DieSource.roller.evaluate .default .disadvantage "1d20+1").run start =
          .ok (.ok disadvantage) ⟨.faces [7], log₃⟩ ∧
        KeepsOfPasses first second normal advantage disadvantage := by
  intro terms first second start
  have hparse : Terms.parse .default "1d20+1" = .ok terms := by decide
  have hdraw : (DieSource.roller.draw (Mode.advantage.dieSides terms)).run start.state =
      .ok [3, 18] (.faces [7]) := rfl
  obtain ⟨first', second', middle, s', hfirst, hsecond, hmodes⟩ :=
    modes_share_draws DieSource.roller .default "1d20+1" terms hparse start.state
      ⟨_, _, hdraw⟩
  have hrun : (DieSource.roller.roll terms).run start =
      .ok first ⟨.faces [18, 7], [.rolled "1d20" [3]]⟩ := rfl
  have hrun' : (DieSource.roller.roll terms).run ⟨.faces [18, 7], []⟩ =
      .ok second ⟨.faces [7], [.rolled "1d20" [18]]⟩ := rfl
  obtain ⟨_, hfirst⟩ := hfirst []
  cases hrun.symm.trans hfirst
  obtain ⟨_, hsecond⟩ := hsecond []
  cases hrun'.symm.trans hsecond
  exact ⟨hparse, hdraw, hmodes [] [] []⟩

end FairDice
