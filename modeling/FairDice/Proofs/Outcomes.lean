import FairDice.Proofs.Rolling
import Mathlib

/-!
# The totals that an expression can come to

Every term has a least and a greatest total on fair dice, and so has the
expression. A total between the two is shared out over the terms, and what falls
to a group of dice is shared out over the dice: nothing in between is left out.
-/
namespace FairDice

section

variable {α : Type} {lo hi : α → Int} {as : List α}

/-- Every number between two sums is itself the sum of numbers between their summands. -/
theorem exists_forall₂_sum_eq (h : ∀ a ∈ as, lo a ≤ hi a) {total : Int}
    (hlo : (as.map lo).sum ≤ total) (hhi : total ≤ (as.map hi).sum) :
    ∃ xs, List.Forall₂ (fun a x => lo a ≤ x ∧ x ≤ hi a) as xs ∧ xs.sum = total := by
  induction as generalizing total with
  | nil =>
    have hzero : (0 : Int) = total := le_antisymm hlo hhi
    exact ⟨[], .nil, hzero⟩
  | cons a as ih =>
    rw [List.forall_mem_cons] at h
    rw [List.map_cons, List.sum_cons] at hlo hhi
    have hsum : (as.map lo).sum ≤ (as.map hi).sum := List.sum_le_sum h.2
    have hfirst : ∃ x, lo a ≤ x ∧ x ≤ hi a ∧ (as.map lo).sum ≤ total - x ∧
        total - x ≤ (as.map hi).sum := by
      refine ⟨max (lo a) (total - (as.map hi).sum), ?_⟩
      omega
    obtain ⟨x, hlox, hxhi, hlorest, hresthi⟩ := hfirst
    obtain ⟨xs, hxs, htotal⟩ := ih h.2 hlorest hresthi
    refine ⟨x :: xs, .cons ⟨hlox, hxhi⟩ hxs, ?_⟩
    rw [List.sum_cons, htotal]
    omega

theorem sum_eq_sum_iff_of_le (h : ∀ a ∈ as, lo a ≤ hi a) :
    (as.map lo).sum = (as.map hi).sum ↔ ∀ a ∈ as, lo a = hi a := by
  induction as with
  | nil => simp
  | cons a as ih =>
    rw [List.forall_mem_cons] at h ⊢
    have hsum : (as.map lo).sum ≤ (as.map hi).sum := List.sum_le_sum h.2
    rw [List.map_cons, List.map_cons, List.sum_cons, List.sum_cons, ← ih h.2]
    omega

end

def OnDie (sides face : UInt32) : Prop := 1 ≤ face.toNat ∧ face.toNat ≤ sides.toNat

/-- The faces of dice come to one for each die at least, and to all their sides at most. -/
theorem faceTotal_bounds {dice faces : List UInt32} (h : List.Forall₂ OnDie dice faces) :
    dice.length ≤ faceTotal faces ∧ faceTotal faces ≤ faceTotal dice := by
  induction h with
  | nil => exact ⟨le_rfl, le_rfl⟩
  | cons hface _ ih =>
    obtain ⟨hpos, hle⟩ := hface
    rw [faceTotal_cons, faceTotal_cons, List.length_cons]
    omega

/-- Dice have faces for every total from one for each die to all their sides. -/
theorem exists_faces {dice : List UInt32} (h : ∀ die ∈ dice, 1 ≤ die.toNat) {total : Int}
    (hlo : dice.length ≤ total) (hhi : total ≤ faceTotal dice) :
    ∃ faces, List.Forall₂ OnDie dice faces ∧ faceTotal faces = total := by
  have hrange : ∀ die ∈ dice, (1 : Int) ≤ die.toNat := fun die hdie => by
    exact_mod_cast h die hdie
  have hsum : (dice.map fun _ => (1 : Int)).sum = dice.length := by simp
  obtain ⟨xs, hxs, rfl⟩ := exists_forall₂_sum_eq hrange (hsum.trans_le hlo) hhi
  clear hlo hhi hsum hrange h
  induction hxs with
  | nil => exact ⟨[], .nil, rfl⟩
  | @cons die x _ _ hx _ ih =>
    obtain ⟨faces, hfaces, htotal⟩ := ih
    have hlt : die.toNat < UInt32.size := die.toNat_lt
    have hface : (UInt32.ofNat x.toNat).toNat = x.toNat := UInt32.toNat_ofNat_of_lt' (by omega)
    refine ⟨UInt32.ofNat x.toNat :: faces, .cons ⟨by omega, by omega⟩ hfaces, ?_⟩
    rw [faceTotal_cons, htotal, hface, List.sum_cons]
    omega

namespace Term

def least : Term → Int
  | .dice .plus count _ _ => count.toNat
  | .dice .minus count sides _ => -(count.toNat * sides.toNat)
  | .constant sign value _ => sign.factor * value.toNat

def greatest : Term → Int
  | .dice .plus count sides _ => count.toNat * sides.toNat
  | .dice .minus count _ _ => -count.toNat
  | .constant sign value _ => sign.factor * value.toNat

/-- The total of a term with the highest face on each of its dice. -/
def topTotal : Term → Int
  | .dice sign count sides _ => sign.factor * (count.toNat * sides.toNat)
  | .constant sign value _ => sign.factor * value.toNat

/-- Dice that are taken away, and have more than one side. -/
def FallsWithFaces : Term → Prop
  | .dice .minus _ sides _ => 1 < sides.toNat
  | .dice .plus .. | .constant .. => False

variable {limits : Limits} {term : Term}

theorem Within.le_mul {sign : Sign} {count sides : UInt32} {raw : String}
    (h : (Term.dice sign count sides raw).Within limits) :
    (count.toNat : Int) ≤ count.toNat * sides.toNat := by
  have hsides := h.2.2.1
  exact_mod_cast Nat.le_mul_of_pos_right count.toNat hsides

theorem Within.one_le_of_mem {sign : Sign} {count sides die : UInt32} {raw : String}
    (h : (Term.dice sign count sides raw).Within limits)
    (hdie : die ∈ List.replicate count.toNat sides) : 1 ≤ die.toNat := by
  rw [List.eq_of_mem_replicate hdie]
  exact h.2.2.1

/-- With its sign taken off, a total of dice is between one for each die and all their sides. -/
theorem between_dice_iff {sign : Sign} {count sides : UInt32} {raw : String} {total : Int} :
    (dice sign count sides raw).least ≤ total ∧ total ≤ (dice sign count sides raw).greatest ↔
      count.toNat ≤ sign.factor * total ∧ sign.factor * total ≤ count.toNat * sides.toNat := by
  cases sign <;> simp only [least, greatest, Sign.factor] <;> omega

theorem least_le_greatest (h : term.Within limits) : term.least ≤ term.greatest := by
  cases term with
  | dice sign count sides raw =>
    have hle := h.le_mul
    cases sign
    · exact hle
    · exact Int.neg_le_neg hle
  | constant sign value raw => exact le_rfl

/-- That there are dice at all is what makes the sides tell. -/
theorem least_eq_greatest_iff (h : term.Within limits) :
    term.least = term.greatest ↔ term.isDeterministic := by
  cases term with
  | dice sign count sides raw =>
    have hcount : (count.toNat : Int) ≠ 0 := by
      have hpos := h.1
      omega
    have hone : (count.toNat : Int) = count.toNat * sides.toNat ↔ sides = 1 := by
      rw [← UInt32.toNat_inj, eq_comm, mul_eq_left₀ hcount]
      norm_cast
    rw [isDeterministic, beq_iff_eq, ← hone]
    cases sign
    · exact Iff.rfl
    · rw [least, greatest, neg_inj, eq_comm]
  | constant sign value raw => simp [least, greatest, isDeterministic]

theorem topTotal_le_greatest (h : term.Within limits) : term.topTotal ≤ term.greatest := by
  cases term with
  | dice sign count sides raw =>
    have hle := h.le_mul
    cases sign <;> simp only [topTotal, greatest, Sign.factor] <;> omega
  | constant sign value raw => exact le_rfl

/-- Highest faces give the greatest total unless the term falls with its faces. -/
theorem topTotal_eq_greatest_iff (h : term.Within limits) :
    term.topTotal = term.greatest ↔ ¬term.FallsWithFaces := by
  cases term with
  | dice sign count sides raw =>
    cases sign with
    | plus => simp [topTotal, greatest, FallsWithFaces, Sign.factor]
    | minus =>
      have hsides := h.2.2.1
      have hleast : (dice .minus count sides raw).topTotal =
          (dice .minus count sides raw).least := by
        simp [topTotal, least, Sign.factor]
      rw [hleast, least_eq_greatest_iff h, isDeterministic, beq_iff_eq, ← UInt32.toNat_inj]
      simp only [FallsWithFaces, UInt32.toNat_one]
      omega
  | constant sign value raw => simp [topTotal, greatest, FallsWithFaces]

end Term

namespace Terms

def least (terms : Terms) : Int := (terms.toList.map Term.least).sum

def greatest (terms : Terms) : Int := (terms.toList.map Term.greatest).sum

/-- There is a roller with fair dice that comes to this total. -/
def Attains (terms : Terms) (total : Int) : Prop :=
  ∃ (σ : Type) (roller : Roller σ) (r r' : Recorded σ) (set : RollSet),
    roller.IsTotal ∧ roller.KeepsToDice ∧ (roller.roll terms).run r = .ok set r' ∧
      set.total.toInt = total

end Terms

namespace Roller

/-- Faces that are written down, each shown if it is on the die that is rolled. -/
def scripted : Roller (List UInt32) where
  rollDie sides
    | face :: rest => .ok (if 1 ≤ face ∧ face ≤ sides then face else 1) rest
    | [] => .ok 1 []

theorem isTotal_scripted : scripted.IsTotal := by
  intro sides s
  cases s with
  | nil => exact ⟨_, _, rfl⟩
  | cons face rest => exact ⟨_, _, rfl⟩

theorem keepsToDice_scripted : scripted.KeepsToDice := by
  intro sides s face s' hsides h
  cases s with
  | nil =>
    cases h
    exact ⟨le_rfl, hsides⟩
  | cons first rest =>
    cases h
    split
    next honDie => exact honDie
    next => exact ⟨le_rfl, hsides⟩

/-- The scripted roller gives the faces of its script, if they are on the dice. -/
theorem steps_scripted {dice faces : List UInt32} (h : List.Forall₂ OnDie dice faces)
    (rest : List UInt32) : Steps scripted.DrawsFace dice (faces ++ rest) faces rest := by
  induction h with
  | nil => exact .nil rest
  | @cons die face _ faces hface _ ih =>
    refine .cons ?_ ih
    have hshown : (if 1 ≤ face ∧ face ≤ die then face else 1) = face := if_pos hface
    rw [DrawsFace, scripted]
    exact congrArg (EStateM.Result.ok · (faces ++ rest)) hshown

variable {σ : Type} {roller : Roller σ} {limits : Limits} {terms : Terms} {s s' : σ}

theorem forall₂_onDie_of_steps (hroller : roller.KeepsToDice) {dice faces : List UInt32}
    (hdice : ∀ die ∈ dice, 1 ≤ die.toNat) (h : Steps roller.DrawsFace dice s faces s') :
    List.Forall₂ OnDie dice faces :=
  h.forall₂ fun die hdie s face s' hface => hroller die s face s' (hdice die hdie) hface

/-- A fair roller keeps a term between its least and its greatest total. -/
theorem RollsTerm.total_bounds {term : Term} {roll : TermRoll} (h : roller.RollsTerm term s roll s')
    (hroller : roller.KeepsToDice) (hterm : term.Within limits) :
    term.least ≤ roll.total.toInt ∧ roll.total.toInt ≤ term.greatest := by
  cases h with
  | constant htotal =>
    rw [htotal]
    exact ⟨le_rfl, le_rfl⟩
  | @dice sign count sides raw faces _ _ _ hsteps htotal =>
    have hfaces := forall₂_onDie_of_steps hroller (fun _ => hterm.one_le_of_mem) hsteps
    have hbounds := faceTotal_bounds hfaces
    rw [List.length_replicate, faceTotal_replicate] at hbounds
    rwa [Term.between_dice_iff, htotal, sign.factor_mul_factor_mul]

/-- Fair dice do not leave the range of an expression. -/
theorem RollsSet.total_bounds {set : RollSet} (h : roller.RollsSet terms s set s')
    (hroller : roller.KeepsToDice) (hterms : terms.Within limits) :
    terms.least ≤ set.total.toInt ∧ set.total.toInt ≤ terms.greatest := by
  have hbounds := h.steps.forall₂ fun term hterm _ _ _ hroll =>
    RollsTerm.total_bounds hroll hroller (hterms.within term hterm)
  rw [h.total_eq]
  constructor
  · apply List.Forall₂.sum_le_sum
    rw [List.forall₂_map_left_iff, List.forall₂_map_right_iff]
    exact hbounds.imp fun _ _ hbound => hbound.1
  · apply List.Forall₂.sum_le_sum
    rw [List.forall₂_map_left_iff, List.forall₂_map_right_iff]
    exact (hbounds.imp fun _ _ hbound => hbound.2).flip

/-- There is a script for each total in the range of a term. -/
theorem exists_script {term : Term} (hterm : term.Within limits) {total : Int}
    (hlo : term.least ≤ total) (hhi : total ≤ term.greatest) :
    ∃ faces roll, roll.total.toInt = total ∧
      ∀ rest, scripted.RollsTerm term (faces ++ rest) roll rest := by
  cases term with
  | constant sign value raw =>
    have htotal := TermRoll.toInt_total_ofConstant sign raw hterm
    refine ⟨[], .ofConstant sign value raw, ?_, fun rest => .constant htotal⟩
    rw [htotal]
    exact le_antisymm hlo hhi
  | dice sign count sides raw =>
    obtain ⟨hlo, hhi⟩ := Term.between_dice_iff.mp ⟨hlo, hhi⟩
    have hlength : (List.replicate count.toNat sides).length = count.toNat := List.length_replicate
    rw [← hlength] at hlo
    rw [← faceTotal_replicate] at hhi
    obtain ⟨faces, hfaces, hfaceTotal⟩ := exists_faces (fun _ => hterm.one_le_of_mem) hlo hhi
    have hle : faces.length ≤ 100 := by
      rw [← hfaces.length_eq, hlength]
      exact hterm.2.1.trans limits.maxDice_le
    have htotal := TermRoll.toInt_total_ofFaces sign raw hle
    refine ⟨faces, .ofFaces sign faces raw, ?_, fun rest => ?_⟩
    · rw [htotal, hfaceTotal, sign.factor_mul_factor_mul]
    · exact .dice (steps_scripted hfaces rest) htotal

/-- Scripts for the terms, one behind the other, are a script for all of them. -/
theorem exists_steps_scripted {terms : List Term} (hterms : ∀ term ∈ terms, term.Within limits)
    {totals : List Int}
    (h : List.Forall₂ (fun term total => term.least ≤ total ∧ total ≤ term.greatest)
      terms totals) :
    ∃ faces rolls, Steps scripted.RollsTerm terms faces rolls [] ∧
      rolls.map (fun roll : TermRoll => roll.total.toInt) = totals := by
  induction h with
  | nil => exact ⟨[], [], .nil _, rfl⟩
  | cons hrange _ ih =>
    rw [List.forall_mem_cons] at hterms
    obtain ⟨rest, rolls, hrolls, rfl⟩ := ih hterms.2
    obtain ⟨faces, roll, rfl, hroll⟩ := exists_script hterms.1 hrange.1 hrange.2
    exact ⟨faces ++ rest, roll :: rolls, .cons (hroll rest) hrolls, rfl⟩

end Roller

namespace Terms

variable {limits : Limits} {terms : Terms}

/-- The totals fair rollers can reach are all those between the least and the greatest. -/
theorem attains_iff (h : terms.Within limits) {total : Int} :
    terms.Attains total ↔ terms.least ≤ total ∧ total ≤ terms.greatest := by
  constructor
  · rintro ⟨σ, roller, r, r', set, -, hroller, hrun, rfl⟩
    exact (Roller.rollsSet_of_run h hrun).total_bounds hroller h
  · rintro ⟨hlo, hhi⟩
    have hle : ∀ term ∈ terms.toList, term.least ≤ term.greatest := fun term hterm =>
      Term.least_le_greatest (h.within term hterm)
    obtain ⟨totals, htotals, rfl⟩ := exists_forall₂_sum_eq hle hlo hhi
    obtain ⟨faces, rolls, hrolls, rfl⟩ := Roller.exists_steps_scripted h.within htotals
    obtain ⟨set, r', hrun⟩ := Roller.isTotal_scripted.answersDice.answers_roll h ⟨faces, []⟩
    have hset : Roller.scripted.RollsSet terms faces set r'.state :=
      Roller.rollsSet_of_run h hrun
    obtain ⟨rfl, -⟩ := hset.steps.unique hrolls Roller.RollsTerm.unique
    exact ⟨_, _, _, _, set, Roller.isTotal_scripted, Roller.keepsToDice_scripted, hrun,
      hset.total_eq⟩

theorem least_le_greatest (h : terms.Within limits) : terms.least ≤ terms.greatest :=
  List.sum_le_sum fun term hterm => Term.least_le_greatest (h.within term hterm)

/-- Only terms without a choice have the same least and greatest total. -/
theorem least_eq_greatest_iff (h : terms.Within limits) :
    terms.least = terms.greatest ↔ terms.isDeterministic := by
  rw [least, greatest, sum_eq_sum_iff_of_le fun term hterm =>
    Term.least_le_greatest (h.within term hterm), isDeterministic, List.all_eq_true]
  exact forall₂_congr fun term hterm => Term.least_eq_greatest_iff (h.within term hterm)

/-- The terms are deterministic if fair dice have no say in their total. -/
theorem isDeterministic_iff (h : terms.Within limits) :
    terms.isDeterministic ↔
      ∀ total total', terms.Attains total → terms.Attains total' → total = total' := by
  have hle := least_le_greatest h
  simp only [← least_eq_greatest_iff h, attains_iff h]
  constructor
  · intro heq total total' htotal htotal'
    omega
  · intro hsame
    exact hsame _ _ ⟨le_rfl, hle⟩ ⟨hle, le_rfl⟩

/-- Highest faces everywhere give the greatest total exactly if no term falls with its faces. -/
theorem sum_topTotal_eq_greatest_iff (h : terms.Within limits) :
    (terms.toList.map Term.topTotal).sum = terms.greatest ↔
      ∀ term ∈ terms.toList, ¬term.FallsWithFaces := by
  rw [greatest, sum_eq_sum_iff_of_le fun term hterm =>
    Term.topTotal_le_greatest (h.within term hterm)]
  exact forall₂_congr fun term hterm => Term.topTotal_eq_greatest_iff (h.within term hterm)

end Terms

namespace Roller

variable {s : DieSource}

/-- The highest roller shows the sides of every die. -/
theorem steps_top (dice : List UInt32) :
    Steps DieSource.roller.DrawsFace dice .top dice .top := by
  induction dice with
  | nil => exact .nil _
  | cons die dice ih => exact .cons rfl ih

theorem RollsTerm.total_top {term : Term} {roll : TermRoll}
    (h : DieSource.roller.RollsTerm term .top roll s) :
    roll.total.toInt = term.topTotal ∧ s = .top := by
  cases h with
  | constant htotal => exact ⟨htotal, rfl⟩
  | dice hsteps htotal =>
    obtain ⟨rfl, rfl⟩ := hsteps.unique (steps_top _) DrawsFace.unique
    rw [htotal, faceTotal_replicate]
    exact ⟨rfl, rfl⟩

theorem totals_top {terms : List Term} {rolls : List TermRoll} {start : DieSource}
    (h : Steps DieSource.roller.RollsTerm terms start rolls s) (hstart : start = .top) :
    rolls.map (fun roll => roll.total.toInt) = terms.map Term.topTotal := by
  induction h with
  | nil => rfl
  | cons hroll _ ih =>
    subst hstart
    obtain ⟨htotal, hmiddle⟩ := hroll.total_top
    rw [List.map_cons, List.map_cons, htotal, ih hmiddle]

end Roller

/-- The totals of an accepted expression on fair dice are the numbers from its least to its greatest
total, all of them and no others. It is deterministic if this is one number only. The highest faces
come to the greatest total unless dice with more than one side are taken away. -/
theorem fair_totals_fill_range (limits : Limits) (expression : String) (terms : Terms)
    (hparse : Terms.parse limits expression = .ok terms) :
    (∀ {σ : Type} (roller : Roller σ) (r r' : Recorded σ) (set : RollSet), roller.KeepsToDice →
      (roller.roll terms).run r = .ok set r' →
        terms.least ≤ set.total.toInt ∧ set.total.toInt ≤ terms.greatest) ∧
    {total | terms.Attains total} = Set.Icc terms.least terms.greatest ∧
    (terms.isDeterministic ↔ terms.least = terms.greatest) ∧
    (terms.isDeterministic ↔
      ∀ total total', terms.Attains total → terms.Attains total' → total = total') ∧
    ∀ log, ∃ set log',
      (DieSource.roller.roll terms).run ⟨.top, log⟩ = .ok set ⟨.top, log'⟩ ∧
      (set.total.toInt = terms.greatest ↔ ∀ term ∈ terms.toList, ¬term.FallsWithFaces) := by
  have hterms := Terms.within_of_parse hparse
  refine ⟨?_, ?_, (Terms.least_eq_greatest_iff hterms).symm, Terms.isDeterministic_iff hterms, ?_⟩
  · intro σ roller r r' set hroller hrun
    exact (Roller.rollsSet_of_run hterms hrun).total_bounds hroller hterms
  · ext total
    exact Terms.attains_iff hterms
  · intro log
    obtain ⟨set, hset, hrun⟩ := Roller.exists_run_roll hterms
      (Roller.run_draw_of_steps (Roller.steps_top terms.dieSides))
    obtain ⟨log', hrun⟩ := hrun log
    refine ⟨set, log', hrun, ?_⟩
    rw [hset.total_eq, Roller.totals_top hset.steps rfl]
    exact Terms.sum_topTotal_eq_greatest_iff hterms

/-- Dice that are taken away keep the highest faces from the greatest total. -/
theorem fair_totals_fill_range_dice_taken_away :
    let terms : Terms :=
      ⟨[.dice .plus 2 6 "2d6", .dice .minus 1 4 "-1d4", .constant .plus 3 "+3"]⟩
    Terms.parse .default "2d6 - 1d4 + 3" = .ok terms ∧
      {total | terms.Attains total} = Set.Icc 1 14 ∧
      terms.isDeterministic = false ∧
      ∃ set log, (DieSource.roller.roll terms).run ⟨.top, []⟩ = .ok set ⟨.top, log⟩ ∧
        set.total.toInt ≠ 14 := by
  intro terms
  have hparse : Terms.parse .default "2d6 - 1d4 + 3" = .ok terms := by decide
  have hleast : terms.least = 1 := rfl
  have hgreatest : terms.greatest = 14 := rfl
  obtain ⟨-, hrange, hdeterministic, -, htop⟩ :=
    fair_totals_fill_range .default "2d6 - 1d4 + 3" terms hparse
  rw [hleast, hgreatest] at hrange hdeterministic
  obtain ⟨set, log, hrun, htotal⟩ := htop []
  rw [hgreatest] at htotal
  refine ⟨hparse, hrange, ?_, set, log, hrun, ?_⟩
  · rw [← Bool.not_eq_true, hdeterministic]
    decide
  · rw [Ne, htotal]
    intro hnone
    have hfalls : (Term.dice .minus 1 4 "-1d4").FallsWithFaces := by simp [Term.FallsWithFaces]
    exact hnone _ (by simp [terms]) hfalls

end FairDice
