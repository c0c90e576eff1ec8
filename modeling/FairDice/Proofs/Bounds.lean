import FairDice.Proofs.Parsing

/-!
# What accepted terms are within

There are few accepted terms, their dice have sides and few enough, and neither a
constant nor all dice together get large.
-/
namespace FairDice

variable {limits : Limits}

def Term.Within (limits : Limits) : Term → Prop
  | .dice _ count sides _ =>
    1 ≤ count.toNat ∧ count.toNat ≤ limits.maxDice ∧ 1 ≤ sides.toNat ∧
      sides.toNat ≤ limits.maxSides
  | .constant _ value _ => value.toNat ≤ maxValue

structure Terms.Within (limits : Limits) (terms : Terms) : Prop where
  ne_nil : terms.toList ≠ []
  length_le : terms.length ≤ limits.maxTerms
  within : ∀ term ∈ terms.toList, term.Within limits
  dice_le : (terms.toList.map (·.diceCount.toNat)).sum ≤ limits.maxDice

namespace Written

variable {w : Written} {term : Term}

theorem Means.diceCount (h : w.Means term) : term.diceCount.toNat = w.dice := by
  cases term with
  | dice sign count sides raw =>
    obtain ⟨-, hcount, ⟨digits, hdigits, -⟩, -⟩ := h
    simp [Term.diceCount, hcount, Written.dice, hdigits]
  | constant sign value raw =>
    obtain ⟨-, -, hnone, -⟩ := h
    simp [Term.diceCount, Written.dice, hnone]

/-- An operand that fits the limits means a term within them. -/
theorem Means.within (h : w.Means term) (hfits : w.Fits limits)
    (hdice : w.dice ≤ limits.maxDice) : term.Within limits := by
  cases term with
  | dice sign count sides raw =>
    obtain ⟨-, hcount, ⟨digits, hdigits, hsides⟩, -⟩ := h
    have hsome : w.sides?.isSome := by simp [hdigits]
    rw [Written.dice, if_pos hsome, ← hcount] at hdice
    rw [Term.Within, hsides]
    exact ⟨hcount ▸ hfits.count_pos hsome, hdice, hfits.sides_pos digits hdigits,
      hfits.sides_le digits hdigits⟩
  | constant sign value raw =>
    obtain ⟨-, hvalue, -, -⟩ := h
    rw [Term.Within, hvalue]
    exact hfits.numbers_le w.first (by simp [numbers])

end Written

theorem diceCount_eq_diceOf {ws : List Written} {terms : List Term}
    (h : List.Forall₂ Written.Means ws terms) :
    (terms.map (·.diceCount.toNat)).sum = diceOf ws := by
  induction h with
  | nil => rfl
  | cons hmeans _ ih => rw [List.map_cons, List.sum_cons, ih, hmeans.diceCount, diceOf_cons]

theorem forall_within {ws : List Written} {terms : List Term}
    (h : List.Forall₂ Written.Means ws terms) (hfits : ∀ w ∈ ws, w.Fits limits)
    (hdice : diceOf ws ≤ limits.maxDice) : ∀ term ∈ terms, term.Within limits := by
  induction h with
  | nil => simp
  | cons hmeans _ ih =>
    rw [List.forall_mem_cons] at hfits ⊢
    rw [diceOf_cons] at hdice
    exact ⟨hmeans.within hfits.1 (by omega), ih hfits.2 (by omega)⟩

/-- Whatever is accepted is within the limits. -/
theorem Terms.within_of_parse {input : String} {terms : Terms}
    (h : Terms.parse limits input = .ok terms) : terms.Within limits := by
  obtain ⟨ws, hws, hacceptable, hmeans⟩ := ofExpression_eq_ok_iff.mp h
  have hlength : ws.length = terms.toList.length := hmeans.length_eq
  refine ⟨?_, ?_, forall_within hmeans hacceptable.fits hacceptable.dice_le, ?_⟩
  · intro hnil
    rw [hnil] at hlength
    exact hws.ne_nil (List.length_eq_zero_iff.mp hlength)
  · rw [Terms.length, ← hlength]
    exact hacceptable.length_le
  · rw [diceCount_eq_diceOf hmeans]
    exact hacceptable.dice_le

end FairDice
