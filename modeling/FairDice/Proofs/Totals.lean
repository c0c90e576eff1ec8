import FairDice.Number
import FairDice.RollSet
import Mathlib

/-!
# Totals are exact

Adding words wraps around only past 63 bits, and while all summands are small and
few, no sum gets there.
-/
namespace FairDice

def Sign.factor : Sign → Int
  | .plus => 1
  | .minus => -1

def faceTotal (faces : List UInt32) : Int := (faces.map fun face => (face.toNat : Int)).sum

theorem faceTotal_cons (face : UInt32) (faces : List UInt32) :
    faceTotal (face :: faces) = face.toNat + faceTotal faces := rfl

theorem faceTotal_replicate (n : Nat) (face : UInt32) :
    faceTotal (List.replicate n face) = n * face.toNat := by
  simp [faceTotal]

theorem toInt_toInt64 {value : UInt64} (h : value.toNat < 2 ^ 63) :
    value.toInt64.toInt = value.toNat := by
  rw [← UInt64.ofNat_toNat (x := value), UInt64.toInt64_ofNat', UInt64.ofNat_toNat]
  exact Int64.toInt_ofNat_of_lt h

theorem Sign.natAbs_factor_mul (sign : Sign) (n : Int) : (sign.factor * n).natAbs = n.natAbs := by
  cases sign <;> simp [factor]

theorem Sign.factor_mul_factor_mul (sign : Sign) (n : Int) :
    sign.factor * (sign.factor * n) = n := by
  cases sign <;> simp [factor]

/-- A sign multiplies by its factor, without overflow. -/
theorem Sign.toInt_apply (sign : Sign) {value : Int64} (h : value.toInt.natAbs < 2 ^ 63) :
    (sign.apply value).toInt = sign.factor * value.toInt := by
  cases sign with
  | plus => simp [factor]
  | minus =>
    rw [apply_minus, Int64.toInt_neg, Int.bmod_eq_of_le (by omega) (by omega), factor]
    omega

/-- Few small words add up exactly, and to no more than so many of the largest. -/
theorem toInt_sum {bound : Nat} {words : List Int64}
    (hwords : ∀ word ∈ words, word.toInt.natAbs ≤ bound) (hlength : words.length * bound < 2 ^ 63) :
    words.sum.toInt = (words.map Int64.toInt).sum ∧
      words.sum.toInt.natAbs ≤ words.length * bound := by
  induction words with
  | nil => simp
  | cons word words ih =>
    rw [List.forall_mem_cons] at hwords
    rw [List.length_cons, Nat.succ_mul] at hlength
    obtain ⟨hsum, hle⟩ := ih hwords.2 (by omega)
    have hadd : (word + words.sum).toInt = word.toInt + words.sum.toInt := by
      rw [Int64.toInt_add]
      exact Int.bmod_eq_of_le (by omega) (by omega)
    rw [List.sum_cons, List.map_cons, List.sum_cons, hadd, hsum, List.length_cons, Nat.succ_mul]
    refine ⟨rfl, ?_⟩
    rw [← hsum]
    omega

/-- A hundred faces add up without overflow. -/
theorem toInt_faceSum {faces : List UInt32} (h : faces.length ≤ 100) :
    (faceSum faces).toInt = faceTotal faces ∧ (faceSum faces).toInt.natAbs ≤ 100 * 2 ^ 32 := by
  have hface : ∀ face : UInt32, face.toUInt64.toInt64.toInt = face.toNat := by
    intro face
    have hlt := face.toNat_lt
    rw [toInt_toInt64 (by rw [UInt32.toNat_toUInt64]; omega), UInt32.toNat_toUInt64]
  have hbound : ∀ word ∈ faces.map (·.toUInt64.toInt64), word.toInt.natAbs ≤ 2 ^ 32 := by
    intro word hword
    obtain ⟨face, -, rfl⟩ := List.mem_map.mp hword
    have hlt := face.toNat_lt
    rw [hface]
    omega
  obtain ⟨hsum, hle⟩ := toInt_sum hbound (by rw [List.length_map]; omega)
  rw [List.length_map] at hle
  constructor
  · rw [faceSum, hsum, List.map_map, faceTotal]
    exact congrArg List.sum (List.map_congr_left fun face _ => hface face)
  · exact Nat.le_trans hle (Nat.mul_le_mul_right _ h)

theorem natAbs_faceTotal_le {faces : List UInt32} (h : faces.length ≤ 100) :
    (faceTotal faces).natAbs ≤ 100 * 2 ^ 32 := by
  obtain ⟨hsum, hle⟩ := toInt_faceSum h
  rwa [hsum] at hle

theorem TermRoll.toInt_total_ofConstant (sign : Sign) {value : UInt64} (raw : String)
    (h : value.toNat ≤ maxValue) :
    (ofConstant sign value raw).total.toInt = sign.factor * value.toNat := by
  have hmax : maxValue < 2 ^ 63 := by decide
  have hvalue := toInt_toInt64 (show value.toNat < 2 ^ 63 by omega)
  rw [ofConstant, Sign.toInt_apply sign (by omega), hvalue]

theorem TermRoll.toInt_total_ofFaces (sign : Sign) {faces : List UInt32} (raw : String)
    (h : faces.length ≤ 100) :
    (ofFaces sign faces raw).total.toInt = sign.factor * faceTotal faces := by
  obtain ⟨hsum, hle⟩ := toInt_faceSum h
  rw [ofFaces, Sign.toInt_apply sign (by omega), hsum]

theorem RollSet.toInt_total_ofTerms {rolls : List TermRoll}
    (hrolls : ∀ roll ∈ rolls, roll.total.toInt.natAbs ≤ maxValue) (hlength : rolls.length ≤ 20) :
    (ofTerms rolls).total.toInt = (rolls.map fun roll => roll.total.toInt).sum ∧
      (ofTerms rolls).total.toInt.natAbs ≤ 20 * maxValue := by
  have hmax : 20 * maxValue < 2 ^ 63 := by decide
  have hwords : ∀ word ∈ rolls.map TermRoll.total, word.toInt.natAbs ≤ maxValue := by
    intro word hword
    obtain ⟨roll, hroll, rfl⟩ := List.mem_map.mp hword
    exact hrolls roll hroll
  have hle : rolls.length * maxValue ≤ 20 * maxValue := Nat.mul_le_mul_right _ hlength
  obtain ⟨hsum, hbound⟩ := toInt_sum hwords (by rw [List.length_map]; omega)
  rw [List.length_map] at hbound
  refine ⟨?_, hbound.trans hle⟩
  rw [ofTerms, hsum, List.map_map]
  rfl

end FairDice
