import FairDice.Proofs.Evaluating
import Mathlib

/-!
# Which totals a double holds

A double holds an integer exactly if it is a number below `2^53` times a power of
two. No number in an expression, and no total of a single term, is past `2^53`,
but the total of several terms may be: a double holds it for certain only as long
as the terms together reach no further than that.
-/
namespace FairDice

/-- An integer that a double holds exactly. -/
def IsDouble (n : Int) : Prop := ∃ m e : Nat, m < 2 ^ 53 ∧ n.natAbs = m * 2 ^ e

/-- All binary digits behind the first fifty-three have to be zero. -/
theorem isDouble_iff {n : Int} : IsDouble n ↔ 2 ^ (n.natAbs.log2 - 52) ∣ n.natAbs := by
  have hlt : n.natAbs < 2 ^ (n.natAbs.log2 + 1) := Nat.lt_log2_self
  constructor
  · rintro ⟨m, e, hm, hn⟩
    by_cases hzero : n.natAbs = 0
    · rw [hzero]
      exact Nat.dvd_zero _
    have hbound : n.natAbs < 2 ^ (53 + e) := by
      rw [hn, Nat.pow_add]
      exact Nat.mul_lt_mul_of_pos_right hm (Nat.two_pow_pos e)
    have hlog : n.natAbs.log2 < 53 + e := (Nat.log2_lt hzero).mpr hbound
    have hpow : 2 ^ (n.natAbs.log2 - 52) ∣ 2 ^ e := Nat.pow_dvd_pow 2 (by omega)
    exact hpow.trans (hn ▸ Nat.dvd_mul_left _ _)
  · rintro ⟨m, hm⟩
    refine ⟨m, n.natAbs.log2 - 52, ?_, hm.trans (Nat.mul_comm _ _)⟩
    have hle : n.natAbs.log2 + 1 ≤ n.natAbs.log2 - 52 + 53 := by omega
    have hpow : 2 ^ (n.natAbs.log2 + 1) ≤ 2 ^ (n.natAbs.log2 - 52) * 2 ^ 53 := by
      rw [← Nat.pow_add]
      exact Nat.pow_le_pow_right Nat.two_pos hle
    have hmul : 2 ^ (n.natAbs.log2 - 52) * m < 2 ^ (n.natAbs.log2 - 52) * 2 ^ 53 := by
      rw [← hm]
      exact hlt.trans_le hpow
    exact Nat.lt_of_mul_lt_mul_left hmul

instance (n : Int) : Decidable (IsDouble n) := decidable_of_iff _ isDouble_iff.symm

/-- Up to two to the power of 53, no number is lost to a double. -/
theorem isDouble_of_le {n : Int} (h : n.natAbs ≤ 2 ^ 53) : IsDouble n := by
  rcases Nat.lt_or_eq_of_le h with hlt | heq
  · exact ⟨n.natAbs, 0, hlt, by simp⟩
  · exact ⟨1, 53, by decide, by simpa using heq⟩

/-- How far from zero the total of a term may be. -/
def Term.reach : Term → Nat
  | .dice _ count sides _ => count.toNat * sides.toNat
  | .constant _ value _ => value.toNat

/-- How far from zero a total may be, if no sign makes up for another. -/
def Terms.reach (terms : Terms) : Nat := (terms.toList.map Term.reach).sum

theorem natAbs_faceTotal_le_mul {faces : List UInt32} {sides : Nat}
    (h : ∀ face ∈ faces, face.toNat ≤ sides) : (faceTotal faces).natAbs ≤ faces.length * sides := by
  induction faces with
  | nil => simp [faceTotal]
  | cons face faces ih =>
    rw [List.forall_mem_cons] at h
    have hrest := ih h.2
    have hcons : faceTotal (face :: faces) = face.toNat + faceTotal faces := rfl
    rw [hcons, List.length_cons, Nat.succ_mul]
    omega

theorem natAbs_sum_le_reach {terms : List Term} {rolls : List TermRoll}
    (h : List.Forall₂ (fun (term : Term) (roll : TermRoll) =>
      roll.total.toInt.natAbs ≤ term.reach) terms rolls) :
    (rolls.map fun roll : TermRoll => roll.total.toInt).sum.natAbs ≤
      (terms.map Term.reach).sum := by
  induction h with
  | nil => exact Nat.zero_le _
  | cons hle _ ih =>
    rw [List.map_cons, List.map_cons, List.sum_cons, List.sum_cons]
    omega

namespace Roller

variable {σ : Type} {roller : Roller σ} {limits : Limits} {s s' : σ}

/-- A fair roller keeps a term within its reach. -/
theorem RollsTerm.natAbs_total_le_reach {term : Term} {roll : TermRoll}
    (h : roller.RollsTerm term s roll s') (hroller : roller.KeepsToDice)
    (hterm : term.Within limits) : roll.total.toInt.natAbs ≤ term.reach := by
  cases h with
  | constant htotal =>
    rw [htotal, Sign.natAbs_factor_mul]
    exact Nat.le_refl _
  | @dice _ count sides _ faces _ _ _ hsteps htotal =>
    have hfaces : ∀ face ∈ faces, face.toNat ≤ sides.toNat :=
      hsteps.forall_outcomes fun die hdie s face s' hface => by
        rw [List.eq_of_mem_replicate hdie] at hface
        exact (hroller sides s face s' hterm.2.2.1 hface).2
    have hle := natAbs_faceTotal_le_mul hfaces
    rw [hsteps.length_eq, List.length_replicate] at hle
    rwa [htotal, Sign.natAbs_factor_mul]

/-- A fair roller keeps the total of a set within the reach of its terms. -/
theorem RollsSet.natAbs_total_le_reach {terms : Terms} {set : RollSet}
    (h : roller.RollsSet terms s set s') (hroller : roller.KeepsToDice)
    (hterms : terms.Within limits) : set.total.toInt.natAbs ≤ terms.reach := by
  rw [h.total_eq]
  exact natAbs_sum_le_reach <| h.steps.forall₂ fun term hterm _ _ _ hroll =>
    hroll.natAbs_total_le_reach hroller (hterms.within term hterm)

/-- The total of one term is never too large for a double. -/
theorem RollsSet.isDouble_terms {terms : Terms} {set : RollSet}
    (h : roller.RollsSet terms s set s') (hterms : terms.Within limits) :
    ∀ roll ∈ set.terms, IsDouble roll.total.toInt := by
  intro roll hroll
  have hmax : maxValue ≤ 2 ^ 53 := by decide
  exact isDouble_of_le ((natAbs_total_le_of_steps hterms h.steps roll hroll).trans hmax)

end Roller

variable {σ : Type}

/-- As long as the terms of an accepted expression reach no further than `2^53`, a double holds all
totals of its evaluation; however far they reach, a double holds the total of each term. -/
theorem doubles_hold_totals (roller : Roller σ) (hroller : roller.KeepsToDice) (limits : Limits)
    (mode : Mode) (expression : String) (terms : Terms)
    (hparse : Terms.parse limits expression = .ok terms) (r r' : Recorded σ) (e : Evaluation)
    (hrun : (roller.evaluate limits mode expression).run r = .ok (.ok e) r') :
    (∀ set ∈ e.rollSets, (∀ roll ∈ set.terms, IsDouble roll.total.toInt) ∧
      set.total.toInt.natAbs ≤ terms.reach) ∧
    e.total.toInt.natAbs ≤ terms.reach ∧
    (terms.reach ≤ 2 ^ 53 →
      (∀ set ∈ e.rollSets, IsDouble set.total.toInt) ∧ IsDouble e.total.toInt) := by
  have hwithin := Terms.within_of_parse hparse
  obtain ⟨terms', hparse', hevaluates⟩ := Roller.evaluates_of_run_evaluate hrun
  obtain rfl := Except.ok.inj (hparse.symm.trans hparse')
  have hsets : ∀ set ∈ e.rollSets, (∀ roll ∈ set.terms, IsDouble roll.total.toInt) ∧
      set.total.toInt.natAbs ≤ terms.reach :=
    hevaluates.steps.forall_outcomes fun copy hcopy _ _ _ hset => by
      rw [List.eq_of_mem_replicate hcopy] at hset
      exact ⟨hset.isDouble_terms hwithin, hset.natAbs_total_le_reach hroller hwithin⟩
  obtain ⟨set, hset, htotal⟩ := hevaluates.selected
  have hmem : set ∈ e.rollSets := List.mem_of_getElem? hset
  have hle : e.total.toInt.natAbs ≤ terms.reach := htotal ▸ (hsets set hmem).2
  refine ⟨hsets, hle, fun hreach => ⟨fun set hset => ?_, isDouble_of_le (hle.trans hreach)⟩⟩
  exact isDouble_of_le ((hsets set hset).2.trans hreach)

def Roller.highest : Roller Unit := ⟨fun sides => pure sides⟩

theorem Roller.keepsToDice_highest : Roller.highest.KeepsToDice := by
  intro sides s face s' hsides h
  cases h
  exact ⟨hsides, Nat.le_refl _⟩

/-- Terms that reach exactly as far as doubles hold every integer. -/
theorem doubles_hold_totals_at_bound :
    let terms : Terms := ⟨[.dice .plus 2 6 "2d6", .constant .plus 9007199254740980
      "+9007199254740980"]⟩
    Terms.parse .default "2d6+9007199254740980" = .ok terms ∧ terms.reach = 2 ^ 53 ∧
      ∃ e r', (Roller.highest.evaluate .default .normal "2d6+9007199254740980").run ⟨(), []⟩ =
          .ok (.ok e) r' ∧
        e.total.toInt = 2 ^ 53 ∧ IsDouble e.total.toInt := by
  intro terms
  have hparse : Terms.parse .default "2d6+9007199254740980" = .ok terms := by decide
  have hreach : terms.reach = 2 ^ 53 := by decide
  refine ⟨hparse, hreach, _, _, rfl, by decide, ?_⟩
  exact ((doubles_hold_totals Roller.highest Roller.keepsToDice_highest .default .normal _ terms
    hparse ⟨(), []⟩ _ _ rfl).2.2 hreach.le).2

/-- Terms that reach one further: no double is the total, which no die has a say in. -/
theorem total_one_past_bound_not_isDouble :
    let terms : Terms := ⟨[.constant .plus 9007199254740991 "9007199254740991",
      .constant .plus 2 "+2"]⟩
    Terms.parse .default "9007199254740991+2" = .ok terms ∧ terms.reach = 2 ^ 53 + 1 ∧
      Roller.highest.KeepsToDice ∧
      ∃ e r', (Roller.highest.evaluate .default .normal "9007199254740991+2").run ⟨(), []⟩ =
          .ok (.ok e) r' ∧
        e.total.toInt = 2 ^ 53 + 1 ∧ ¬IsDouble e.total.toInt := by
  intro terms
  refine ⟨by decide, by decide, Roller.keepsToDice_highest, _, _, rfl, by decide, by decide⟩

end FairDice
