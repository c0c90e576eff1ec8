import FairDice.Audit
import FairDice.Proofs.Exactness
import FairDice.Proofs.Outcomes

/-!
# Every evaluation passes its audit

Whatever a roller shows that keeps to its dice, the faces are on the dice, the
totals add up and the kept roll set is the one that the mode selects. Where the
dice have no say, the audit tells a total that is the same for all such rollers.
-/
namespace FairDice

variable {σ : Type} {roller : Roller σ} {limits : Limits} {s s' : σ}

/-- The audit finds nothing: neither in a roll of a term nor in a roll set nor in what is kept. -/
structure Evaluation.PassesAudit (terms : Terms) (e : Evaluation) : Prop where
  rolls : ∀ set ∈ e.rollSets, List.Forall₂ (fun term (roll : TermRoll) =>
    roll.isInRangeOf term ∧ roll.isSummed term.sign) terms.toList set.terms
  sets : ∀ set ∈ e.rollSets, set.isSummed
  selected : e.isSelected

/-- What the audit tells of a total that the dice have no say in. -/
def Term.certainTotal? (term : Term) : Option Int :=
  if term.isDeterministic then some term.least else none

def Terms.certainTotal? (terms : Terms) : Option Int :=
  if terms.isDeterministic then some terms.least else none

/-- A total between two ends is known as soon as they are the same. -/
theorem map_toInt_of_between {total : Int64} {lo hi : Int} {certain : Bool}
    (h : lo ≤ total.toInt ∧ total.toInt ≤ hi) (hends : lo = hi ↔ certain) :
    (if certain then some total else none).map Int64.toInt =
      if certain then some lo else none := by
  split
  · next hcertain =>
    have heq := hends.mpr hcertain
    rw [Option.map_some, le_antisymm (h.2.trans heq.ge) h.1]
  · rfl

theorem TermRoll.isSummed_of_isExact {term : Term} {roll : TermRoll} (h : roll.IsExact term) :
    roll.isSummed term.sign := by
  cases term with
  | constant sign value raw =>
    obtain ⟨rfl, -⟩ := h
    rfl
  | dice sign count sides raw =>
    have htotal : roll.total = sign.apply (faceSum roll.rolls) := congrArg TermRoll.total h.1
    simp [isSummed, Term.sign, htotal]

theorem RollSet.isSummed_of_isExact {set : RollSet} {terms : Terms} (h : set.IsExact terms) :
    set.isSummed := by
  have htotal : set.total = (set.terms.map TermRoll.total).sum := congrArg RollSet.total h.eq_ofTerms
  simp [isSummed, htotal]

namespace Roller

theorem RollsTerm.isInRangeOf {term : Term} {roll : TermRoll}
    (h : roller.RollsTerm term s roll s') (hroller : roller.KeepsToDice)
    (hterm : term.Within limits) : roll.isInRangeOf term := by
  cases h with
  | constant htotal => rfl
  | @dice sign count sides raw faces _ _ _ hsteps htotal =>
    have hfaces : ∀ face ∈ faces, 1 ≤ face.toNat ∧ face.toNat ≤ sides.toNat := by
      refine hsteps.forall_outcomes fun die hdie s face s' hface => ?_
      rw [List.eq_of_mem_replicate hdie] at hface
      exact hroller sides s face s' hterm.2.2.1 hface
    rw [TermRoll.isInRangeOf, TermRoll.isInRange, List.all_eq_true]
    intro face hface
    simpa [UInt32.le_iff_toNat_le] using hfaces face hface

/-- A term that leaves the dice no choice has the total it is certain of, whatever is rolled. -/
theorem RollsTerm.certainTotal?_eq {term : Term} {roll : TermRoll}
    (h : roller.RollsTerm term s roll s') (hroller : roller.KeepsToDice)
    (hterm : term.Within limits) :
    (roll.certainTotal? term).map Int64.toInt = term.certainTotal? :=
  map_toInt_of_between (h.total_bounds hroller hterm) (Term.least_eq_greatest_iff hterm)

variable {expression : String} {mode : Mode} {terms : Terms} {e : Evaluation}

/-- The kept set is the one the mode selects among the totals, and its total is the evaluation's. -/
theorem Evaluates.isSelected (h : roller.Evaluates expression mode terms s e s') :
    e.isSelected := by
  have hindex := h.selects_iff.mp h.selects
  obtain ⟨set, hset, htotal⟩ := h.selected
  simp [Evaluation.isSelected, h.mode_eq, hindex, hset, htotal]

/-- Every evaluation of a fair roller passes all the checks. -/
theorem Evaluates.passesAudit (h : roller.Evaluates expression mode terms s e s')
    (hroller : roller.KeepsToDice) (hterms : terms.Within limits) : e.PassesAudit terms where
  rolls set hset := by
    obtain ⟨t, t', hrolls⟩ := h.exists_rollsSet set hset
    exact hrolls.steps.forall₂ fun term hterm _ _ _ hroll =>
      ⟨hroll.isInRangeOf hroller (hterms.within term hterm),
        TermRoll.isSummed_of_isExact (hroll.isExact (hterms.within term hterm))⟩
  sets set hset := by
    obtain ⟨t, t', hrolls⟩ := h.exists_rollsSet set hset
    exact RollSet.isSummed_of_isExact (hrolls.isExact hterms)
  selected := h.isSelected

/-- The audit tells the same totals of all evaluations of the terms, term by term and in the end. -/
theorem Evaluates.certainTotals_eq (h : roller.Evaluates expression mode terms s e s')
    (hroller : roller.KeepsToDice) (hterms : terms.Within limits) :
    (∀ set ∈ e.rollSets, List.Forall₂ (fun term (roll : TermRoll) =>
      (roll.certainTotal? term).map Int64.toInt = term.certainTotal?) terms.toList set.terms) ∧
    (e.certainTotal? terms).map Int64.toInt = terms.certainTotal? := by
  constructor
  · intro set hset
    obtain ⟨t, t', hrolls⟩ := h.exists_rollsSet set hset
    exact hrolls.steps.forall₂ fun term hterm _ _ _ hroll =>
      hroll.certainTotal?_eq hroller (hterms.within term hterm)
  · obtain ⟨set, hset, htotal⟩ := h.selected
    obtain ⟨t, t', hrolls⟩ := h.exists_rollsSet set (List.mem_of_getElem? hset)
    have hbounds := hrolls.total_bounds hroller hterms
    rw [htotal] at hbounds
    exact map_toInt_of_between hbounds (Terms.least_eq_greatest_iff hterms)

end Roller
end FairDice
