import FairDice.Json.Word
import Mathlib.Data.List.Basic
import Mathlib.Data.List.TakeWhile

/-!
# Numbers written out

The digits of a number have its value and no zero in front, so that an integer is
read back from the way it is written, sign included.
-/
namespace FairDice

theorem toList_toString_nat (n : Nat) : (toString n).toList = Nat.toDigits 10 n := by
  rw [Nat.toString_eq_ofList_toDigits, String.toList_ofList]

theorem decimalValue_toDigits (n : Nat) : decimalValue (Nat.toDigits 10 n) = n := by
  have h := Nat.ofDigitChars_ten_toDigits (n := n)
  rw [Nat.ofDigitChars_eq_foldl] at h
  simpa only [decimalValue, digitValue, Nat.mul_comm] using h

theorem isDigit_of_mem_toDigits {n : Nat} {c : Char} (h : c ∈ Nat.toDigits 10 n) : c.isDigit :=
  Nat.isDigit_of_mem_toDigits (by decide) (by decide) h

theorem digitChar_ne_zero : ∀ n < 10, 0 < n → n.digitChar ≠ '0' := by decide

theorem head?_toDigits {n : Nat} (h : 0 < n) : (Nat.toDigits 10 n).head? ≠ some '0' := by
  induction n using Nat.strongRecOn with
  | ind n ih =>
    rw [Nat.toDigits_eq_if (by decide)]
    split
    · next hlt =>
      rw [List.head?_cons, ne_eq, Option.some.injEq]
      exact digitChar_ne_zero n hlt h
    · rw [List.head?_append_of_ne_nil _ Nat.toDigits_ne_nil]
      exact ih (n / 10) (by omega) (by omega)

namespace Json

theorem isDigits_toDigits (n : Nat) : isDigits (Nat.toDigits 10 n) := by
  have hne : Nat.toDigits 10 n ≠ [] := Nat.toDigits_ne_nil
  have hall : (Nat.toDigits 10 n).all Char.isDigit :=
    List.all_eq_true.mpr fun c hc => isDigit_of_mem_toDigits hc
  simp [isDigits, hne, hall]

theorem isWhole_toDigits (n : Nat) : isWhole (Nat.toDigits 10 n) := by
  rw [isWhole, isDigits_toDigits, Bool.true_and]
  cases n with
  | zero => rfl
  | succ n => simp [head?_toDigits n.succ_pos]

theorem takeWhile_toDigits (n : Nat) :
    (Nat.toDigits 10 n).takeWhile Char.isDigit = Nat.toDigits 10 n :=
  List.takeWhile_eq_self_iff.mpr fun _ hc => isDigit_of_mem_toDigits hc

theorem dropWhile_toDigits (n : Nat) : (Nat.toDigits 10 n).dropWhile Char.isDigit = [] :=
  List.dropWhile_eq_nil_iff.mpr fun _ hc => isDigit_of_mem_toDigits hc

theorem head?_toDigits_ne_minus (n : Nat) : (Nat.toDigits 10 n).head? ≠ some '-' := by
  intro h
  exact absurd (isDigit_of_mem_toDigits (List.mem_of_head? h)) (by decide)

theorem number?_toDigits (n : Nat) : number? (Nat.toDigits 10 n) = some (.int n) := by
  simp [number?, head?_toDigits_ne_minus, takeWhile_toDigits, dropWhile_toDigits, isWhole_toDigits,
    decimalValue_toDigits]

theorem number?_minus_toDigits (n : Nat) :
    number? ('-' :: Nat.toDigits 10 (n + 1)) = some (.int (Int.negSucc n)) := by
  simp [number?, takeWhile_toDigits, dropWhile_toDigits, isWhole_toDigits, decimalValue_toDigits,
    Int.negSucc_eq]

/-- The characters of an integer, written out. -/
theorem toList_toString_int (value : Int) :
    (toString value).toList =
      match value with
      | .ofNat n => Nat.toDigits 10 n
      | .negSucc n => '-' :: Nat.toDigits 10 (n + 1) := by
  cases value with
  | ofNat n => exact toList_toString_nat n
  | negSucc n =>
    have h : toString (Int.negSucc n) = "-" ++ toString (n + 1) := rfl
    rw [h, String.toList_append, toList_toString_nat]
    rfl

/-- An integer is read back from its decimal text. -/
theorem number?_toString (value : Int) : number? (toString value).toList = some (.int value) := by
  rw [toList_toString_int]
  cases value with
  | ofNat n => exact number?_toDigits n
  | negSucc n => exact number?_minus_toDigits n

end Json
end FairDice
