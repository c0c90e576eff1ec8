import FairDice.Mode
import Mathlib.Data.List.Basic

/-!
# Which total is kept

It is one that no other replaces, and the first such. Going through the totals
keeps, at each of them, the best one seen so far; so one more total behind them
all is only selected if it is strictly better. What advantage selects of some
totals, disadvantage selects of their negatives.
-/
namespace FairDice

namespace Mode

/-- The total at place `i` is replaced by none of them, and replaces all in front of it. -/
structure Keeps (mode : Mode) (totals : List Int64) (i : Nat) (kept : Int64) : Prop where
  at_place : totals[i]? = some kept
  best : ∀ total ∈ totals, mode.replaces total kept = false
  first : ∀ total ∈ totals.take i, mode.replaces kept total = true

/-- No total replaces an equal one, so the first of equals stays. -/
theorem replaces_self (mode : Mode) (total : Int64) : mode.replaces total total = false := by
  cases mode <;> simp [replaces]

/-- What replaces a total replaces whatever does not replace it. -/
theorem replaces_of_replaces_of_not {mode : Mode} {a b c : Int64} (h : mode.replaces a b = true)
    (h' : mode.replaces c b = false) : mode.replaces a c = true := by
  cases mode <;>
    simp_all only [replaces, decide_eq_true_eq, decide_eq_false_iff_not, Int64.lt_iff_toInt_lt] <;>
    omega

theorem replaces_asymm {mode : Mode} {a b : Int64} (h : mode.replaces a b = true) :
    mode.replaces b a = false := by
  cases mode <;>
    simp_all only [replaces, decide_eq_true_eq, decide_eq_false_iff_not, Int64.lt_iff_toInt_lt] <;>
    omega

theorem keeps_singleton (mode : Mode) (total : Int64) : mode.Keeps [total] 0 total :=
  ⟨rfl, by simp [replaces_self], by simp⟩

theorem Keeps.lt_length {mode : Mode} {totals : List Int64} {i : Nat} {kept : Int64}
    (h : mode.Keeps totals i kept) : i < totals.length :=
  (List.getElem?_eq_some_iff.mp h.at_place).1

/-- One more total is kept if it replaces the one kept so far. -/
theorem Keeps.concat_replaces {mode : Mode} {totals : List Int64} {i : Nat} {kept total : Int64}
    (h : mode.Keeps totals i kept) (hreplaces : mode.replaces total kept = true) :
    mode.Keeps (totals ++ [total]) totals.length total := by
  refine ⟨by simp, ?_, ?_⟩
  · intro other hother
    rcases List.mem_append.mp hother with hother | hother
    · exact replaces_asymm (replaces_of_replaces_of_not hreplaces (h.best other hother))
    · rw [List.mem_singleton.mp hother, replaces_self]
  · intro other hother
    rw [List.take_left] at hother
    exact replaces_of_replaces_of_not hreplaces (h.best other hother)

/-- A total that does not replace the kept one changes nothing. -/
theorem Keeps.concat {mode : Mode} {totals : List Int64} {i : Nat} {kept total : Int64}
    (h : mode.Keeps totals i kept) (hreplaces : mode.replaces total kept = false) :
    mode.Keeps (totals ++ [total]) i kept := by
  refine ⟨?_, ?_, ?_⟩
  · rw [List.getElem?_append_left h.lt_length, h.at_place]
  · intro other hother
    rcases List.mem_append.mp hother with hother | hother
    · exact h.best other hother
    · rw [List.mem_singleton.mp hother, hreplaces]
  · rw [List.take_append_of_le_length (Nat.le_of_lt h.lt_length)]
    exact h.first

/-- The rest of the totals is taken up one by one, against the best of those in front. -/
theorem Keeps.selectFrom {mode : Mode} {seen : List Int64} {place : Nat} {kept : Int64}
    (h : mode.Keeps seen place kept) (totals : List Int64) :
    ∃ total, mode.Keeps (seen ++ totals) (mode.selectFrom kept place seen.length totals) total := by
  induction totals generalizing seen place kept with
  | nil => exact ⟨kept, by simpa [Mode.selectFrom] using h⟩
  | cons total totals ih =>
    have happend : seen ++ total :: totals = (seen ++ [total]) ++ totals := by simp
    have hlength : seen.length + 1 = (seen ++ [total]).length := by simp
    rw [Mode.selectFrom, happend, hlength]
    cases hreplaces : mode.replaces total kept with
    | true => exact ih (h.concat_replaces hreplaces)
    | false => exact ih (h.concat hreplaces)

/-- What is selected is kept. -/
theorem exists_keeps_select (mode : Mode) {totals : List Int64} (h : totals ≠ []) :
    ∃ kept, mode.Keeps totals (mode.select totals) kept := by
  obtain ⟨total, totals, rfl⟩ := List.exists_cons_of_ne_nil h
  exact (mode.keeps_singleton total).selectFrom totals

/-- The first of the greatest totals with advantage, the first of the least with disadvantage, and
the first of all otherwise. -/
def Selects (totals : List Int) (i : Nat) : Mode → Prop
  | .normal => i = 0
  | .advantage =>
    ∃ kept, totals[i]? = some kept ∧ (∀ t ∈ totals, t ≤ kept) ∧ ∀ t ∈ totals.take i, t < kept
  | .disadvantage =>
    ∃ kept, totals[i]? = some kept ∧ (∀ t ∈ totals, kept ≤ t) ∧ ∀ t ∈ totals.take i, kept < t

/-- The kept total is the first best of those gone through. -/
theorem Keeps.selects {mode : Mode} {totals : List Int64} {i : Nat} {kept : Int64}
    (h : mode.Keeps totals i kept) : mode.Selects (totals.map Int64.toInt) i := by
  have hat : (totals.map Int64.toInt)[i]? = some kept.toInt := by simp [h.at_place]
  obtain ⟨-, hbest, hfirst⟩ := h
  cases mode with
  | normal =>
    cases i with
    | zero => rfl
    | succ i =>
      cases totals with
      | nil => simp at hat
      | cons total totals => exact absurd (hfirst total (by simp)) (by simp [replaces])
  | advantage =>
    simp only [replaces, decide_eq_true_eq, decide_eq_false_iff_not, Int64.lt_iff_toInt_lt,
      Int.not_lt] at hbest hfirst
    refine ⟨kept.toInt, hat, by simpa using hbest, ?_⟩
    rw [← List.map_take, List.forall_mem_map]
    exact hfirst
  | disadvantage =>
    simp only [replaces, decide_eq_true_eq, decide_eq_false_iff_not, Int64.lt_iff_toInt_lt,
      Int.not_lt] at hbest hfirst
    refine ⟨kept.toInt, hat, by simpa using hbest, ?_⟩
    rw [← List.map_take, List.forall_mem_map]
    exact hfirst

section

variable {mode : Mode} {totals : List Int64} {i j : Nat} {kept other total : Int64}

/-- Of two places only the first may be kept: what is kept is better than all in front of it. -/
theorem Keeps.not_lt (h : mode.Keeps totals i kept) (h' : mode.Keeps totals j other) : ¬i < j := by
  intro hlt
  have hmem : kept ∈ totals.take j := by
    apply List.mem_of_getElem? (i := i)
    rw [List.getElem?_take_of_lt hlt, h.at_place]
  have hreplaces := h'.first kept hmem
  rw [h.best other (List.mem_of_getElem? h'.at_place)] at hreplaces
  cases hreplaces

theorem Keeps.unique (h : mode.Keeps totals i kept) (h' : mode.Keeps totals j other) : i = j := by
  have hij := h.not_lt h'
  have hji := h'.not_lt h
  omega

theorem Keeps.select_eq (h : mode.Keeps totals i kept) : mode.select totals = i := by
  have hne : totals ≠ [] := by
    rintro rfl
    cases h.at_place
  obtain ⟨other, hother⟩ := mode.exists_keeps_select hne
  exact hother.unique h

/-- One more total is selected if it replaces the one that is selected without it. -/
theorem Keeps.select_concat (h : mode.Keeps totals (mode.select totals) kept) (total : Int64) :
    mode.select (totals ++ [total]) =
      if mode.replaces total kept then totals.length else mode.select totals := by
  by_cases hreplaces : mode.replaces total kept
  · rw [if_pos hreplaces]
    exact (h.concat_replaces hreplaces).select_eq
  · rw [if_neg hreplaces]
    apply Keeps.select_eq
    exact h.concat (by simpa using hreplaces)

/-- Whether a total is strictly better than the one kept so far. -/
def IsBetter (total kept : Int) : Mode → Prop
  | .normal => False
  | .advantage => kept < total
  | .disadvantage => total < kept

instance : (mode : Mode) → (total kept : Int) → Decidable (mode.IsBetter total kept)
  | .normal, _, _ => inferInstanceAs (Decidable False)
  | .advantage, total, kept => inferInstanceAs (Decidable (kept < total))
  | .disadvantage, total, kept => inferInstanceAs (Decidable (total < kept))

theorem replaces_iff : mode.replaces total kept ↔ mode.IsBetter total.toInt kept.toInt := by
  cases mode <;> simp [replaces, IsBetter, Int64.lt_iff_toInt_lt]

theorem Selects.exists_keeps (h : mode.Selects (totals.map Int64.toInt) i) (hne : totals ≠ []) :
    ∃ kept, mode.Keeps totals i kept := by
  cases mode
  case normal =>
    obtain rfl : i = 0 := h
    obtain ⟨total, totals, rfl⟩ := List.exists_cons_of_ne_nil hne
    exact ⟨total, rfl, fun _ _ => rfl, by simp⟩
  all_goals
    obtain ⟨best, hat, hbest, hfirst⟩ := h
    rw [List.getElem?_map, Option.map_eq_some_iff] at hat
    obtain ⟨kept, hat, rfl⟩ := hat
    rw [List.forall_mem_map] at hbest
    rw [← List.map_take, List.forall_mem_map] at hfirst
    refine ⟨kept, hat, ?_, ?_⟩
    · intro total htotal
      simpa [replaces, Int64.lt_iff_toInt_lt] using hbest total htotal
    · intro total htotal
      simpa [replaces, Int64.lt_iff_toInt_lt] using hfirst total htotal

/-- The first of the best totals is selected, and nothing else. -/
theorem selects_iff (hne : totals ≠ []) :
    mode.Selects (totals.map Int64.toInt) i ↔ i = mode.select totals := by
  constructor
  · intro h
    obtain ⟨kept, hkept⟩ := h.exists_keeps hne
    exact hkept.select_eq.symm
  · rintro rfl
    obtain ⟨kept, hkept⟩ := mode.exists_keeps_select hne
    exact hkept.selects

/-- There is one first best. -/
theorem Selects.unique (hne : totals ≠ []) (h : mode.Selects (totals.map Int64.toInt) i)
    (h' : mode.Selects (totals.map Int64.toInt) j) : i = j :=
  ((selects_iff hne).mp h).trans ((selects_iff hne).mp h').symm

/-- Of two totals the second is selected if it is strictly better. -/
theorem selects_pair_iff {first second : Int64} :
    mode.Selects [first.toInt, second.toInt] i ↔
      i = if mode.IsBetter second.toInt first.toInt then 1 else 0 := by
  have hselect : mode.select [first, second] = if mode.replaces second first then 1 else 0 := rfl
  rw [show [first.toInt, second.toInt] = [first, second].map Int64.toInt from rfl,
    selects_iff (List.cons_ne_nil _ _), hselect]
  simp only [replaces_iff]

/-- The least word is the only one that has no negative. -/
theorem toInt_neg_of_ne_minValue (h : total ≠ Int64.minValue) : (-total).toInt = -total.toInt := by
  have hne : total.toInt ≠ Int64.minValue.toInt := fun heq => h (Int64.toInt_inj.mp heq)
  have hle := total.minValue_le_toInt
  have hlt := total.toInt_lt
  rw [Int64.toInt_minValue] at hne hle
  rw [Int64.toInt_neg]
  apply Int.bmod_eq_of_le <;> omega

/-- The mode that keeps the least where this one keeps the greatest, and the other way round. -/
def opposite : Mode → Mode
  | .normal => .normal
  | .advantage => .disadvantage
  | .disadvantage => .advantage

@[simp] theorem rollCount_opposite (mode : Mode) : mode.opposite.rollCount = mode.rollCount := by
  cases mode <;> rfl

/-- What is the best of some totals is the best of their negatives to the opposite mode. -/
theorem Selects.neg {totals : List Int} (h : mode.Selects totals i) :
    mode.opposite.Selects (totals.map (- ·)) i := by
  cases mode
  case normal => exact h
  all_goals
    obtain ⟨kept, hat, hbest, hfirst⟩ := h
    refine ⟨-kept, by rw [List.getElem?_map, hat, Option.map_some], ?_, ?_⟩
    · rw [List.forall_mem_map]
      exact fun total htotal => Int.neg_le_neg (hbest total htotal)
    · rw [← List.map_take, List.forall_mem_map]
      exact fun total htotal => Int.neg_lt_neg (hfirst total htotal)

theorem select_neg (hmin : Int64.minValue ∉ totals) :
    disadvantage.select (totals.map (- ·)) = advantage.select totals := by
  by_cases hne : totals = []
  · subst hne
    rfl
  · have hwords : (totals.map (- ·)).map Int64.toInt = (totals.map Int64.toInt).map (- ·) := by
      rw [List.map_map, List.map_map]
      exact List.map_congr_left fun total htotal =>
        toInt_neg_of_ne_minValue (ne_of_mem_of_not_mem htotal hmin)
    have hselects : advantage.Selects (totals.map Int64.toInt) (advantage.select totals) :=
      (selects_iff hne).mpr rfl
    have hopposite := hselects.neg
    rw [← hwords] at hopposite
    exact ((selects_iff (by simpa using hne)).mp hopposite).symm

end

/-- The first of the best totals is selected, however many there are. One more total behind them is
selected if it is strictly better than that one, and otherwise changes nothing. Up to the one word
without a negative, advantage selects what disadvantage selects of the negatives. -/
theorem selects_first_best :
    (∀ mode : Mode, mode.select [] = 0) ∧
    (∀ (mode : Mode) (totals : List Int64), totals ≠ [] →
      mode.select totals < totals.length ∧
      (∀ i, mode.Selects (totals.map Int64.toInt) i ↔ i = mode.select totals) ∧
      ∃ kept, totals[mode.select totals]? = some kept ∧ ∀ total,
        (mode.select (totals ++ [total]) = totals.length ↔
          mode.IsBetter total.toInt kept.toInt) ∧
        (¬mode.IsBetter total.toInt kept.toInt →
          mode.select (totals ++ [total]) = mode.select totals)) ∧
    ∀ totals : List Int64, Int64.minValue ∉ totals →
      advantage.select totals = disadvantage.select (totals.map (- ·)) := by
  refine ⟨select_nil, ?_, fun totals hmin => (select_neg hmin).symm⟩
  intro mode totals hne
  obtain ⟨kept, hkept⟩ := mode.exists_keeps_select hne
  refine ⟨hkept.lt_length, fun i => selects_iff hne, kept, hkept.at_place, ?_⟩
  intro total
  rw [hkept.select_concat, ← replaces_iff]
  by_cases hreplaces : mode.replaces total kept
  · simp [hreplaces]
  · have hlt := hkept.lt_length
    simp [hreplaces, Nat.ne_of_lt hlt]

/-- Of two equal greatest totals the first is selected; a third of them changes nothing, one more
does. -/
theorem selects_first_best_tie_behind :
    let totals : List Int64 := [3, 9, -2, 9]
    totals ≠ [] ∧ Int64.minValue ∉ totals ∧ advantage.select totals = 1 ∧
      advantage.select (totals ++ [9]) = 1 ∧ advantage.select (totals ++ [10]) = 4 ∧
      advantage.select totals = disadvantage.select [-3, -9, 2, -9] := by
  intro totals
  have hne : totals ≠ [] := by decide
  have hmin : Int64.minValue ∉ totals := by decide
  have hselect : advantage.select totals = 1 := by decide
  obtain ⟨-, hbest, hneg⟩ := selects_first_best
  obtain ⟨-, -, kept, hkept, hconcat⟩ := hbest advantage totals hne
  obtain rfl : kept = 9 := by
    rw [hselect] at hkept
    exact (Option.some.inj hkept).symm
  refine ⟨hne, hmin, hselect, ?_, ?_, hneg totals hmin⟩
  · exact ((hconcat 9).2 (by decide)).trans hselect
  · exact (hconcat 10).1.mpr (by decide)

/-- The least word is its own negative, and so the least among the negatives too. -/
example : advantage.select [Int64.minValue, 0] = 1 ∧
    disadvantage.select [-Int64.minValue, 0] = 0 := by
  decide

end Mode
end FairDice
