import FairDice.Number
import Mathlib.Data.List.Induction

/-!
# Numbers are read exactly

Giving up once the accumulator leaves 64 bits is the same as comparing the value
in the end, since more digits never make it smaller. Sums of accepted numbers are
exact while they fit, and so are those kept in 32 bits.
-/
namespace FairDice

theorem pushDigit_eq (value : UInt64) (c : Char) :
    pushDigit value c =
      if value.toNat * 10 + digitValue c < UInt64.size then
        some (UInt64.ofNat (value.toNat * 10 + digitValue c))
      else none := rfl

/-- Digits are read if their value fits 64 bits. -/
theorem readWord?_eq (digits : List Char) :
    readWord? digits =
      if decimalValue digits < UInt64.size then some (UInt64.ofNat (decimalValue digits))
      else none := by
  induction digits using List.reverseRecOn with
  | nil => rfl
  | append_singleton digits c ih =>
    have hrun : readWord? (digits ++ [c]) = (readWord? digits).bind (pushDigit · c) := by
      simp [readWord?, List.foldlM_append]
    rw [hrun, ih, decimalValue_concat]
    by_cases h : decimalValue digits < UInt64.size
    · rw [if_pos h, Option.bind_some, pushDigit_eq, UInt64.toNat_ofNat_of_lt' h]
    · have hmore : ¬decimalValue digits * 10 + digitValue c < UInt64.size := by omega
      rw [if_neg h, if_neg hmore, Option.bind_none]

theorem maxValue_lt_size : maxValue < UInt64.size := by decide

/-- Digits are read as a number if their value is no more than the largest number. -/
theorem readNumber?_eq (digits : List Char) :
    readNumber? digits =
      if decimalValue digits ≤ maxValue then some (UInt64.ofNat (decimalValue digits))
      else none := by
  have hmax := maxValue_lt_size
  rw [readNumber?, readWord?_eq]
  by_cases h : decimalValue digits < UInt64.size
  · rw [if_pos h, Option.filter_some, UInt64.toNat_ofNat_of_lt' h]
    simp
  · have hmore : ¬decimalValue digits ≤ maxValue := by omega
    rw [if_neg h, if_neg hmore, Option.filter_none]

/-- A number is read when it is at most the largest, and as its decimal value. -/
theorem readNumber?_eq_some_iff {digits : List Char} {value : UInt64} :
    readNumber? digits = some value ↔
      value.toNat = decimalValue digits ∧ decimalValue digits ≤ maxValue := by
  have hmax := maxValue_lt_size
  rw [readNumber?_eq]
  constructor
  · intro h
    split at h
    · next hle =>
      cases h
      exact ⟨UInt64.toNat_ofNat_of_lt' (by omega), hle⟩
    · cases h
  · rintro ⟨hvalue, hle⟩
    rw [if_pos hle, ← hvalue, UInt64.ofNat_toNat]

/-- A number is rejected when it is above the largest. -/
theorem readNumber?_eq_none_iff {digits : List Char} :
    readNumber? digits = none ↔ maxValue < decimalValue digits := by
  rw [readNumber?_eq]
  split
  · simp; omega
  · simp; omega

theorem toNat_addSaturating {a b : UInt64} (h : a.toNat + b.toNat < UInt64.size) :
    (addSaturating a b).toNat = a.toNat + b.toNat := by
  rw [addSaturating, if_pos h, UInt64.toNat_ofNat_of_lt' h]

theorem narrow?_eq_some_iff {value : UInt64} {n : UInt32} :
    narrow? value = some n ↔ n.toNat = value.toNat := by
  rw [narrow?]
  constructor
  · intro h
    split at h
    · next hlt =>
      cases h
      exact Nat.mod_eq_of_lt hlt
    · cases h
  · intro h
    have hlt : value.toNat < UInt32.size := h ▸ n.toNat_lt
    rw [if_pos hlt, Option.some.injEq, ← UInt32.toNat_inj, h]
    exact Nat.mod_eq_of_lt hlt

theorem narrow?_eq_none_iff {value : UInt64} :
    narrow? value = none ↔ UInt32.size ≤ value.toNat := by
  rw [narrow?]
  split <;> simp <;> omega

/-- A value is kept if it is within a bound that itself fits 32 bits. -/
theorem narrow?_filter_eq_none_iff {value : UInt64} {bound : Nat} (h : bound < UInt32.size) :
    (narrow? value).filter (·.toNat ≤ bound) = none ↔ bound < value.toNat := by
  cases hn : narrow? value with
  | none =>
    have hsize := narrow?_eq_none_iff.mp hn
    rw [Option.filter_none]
    exact ⟨fun _ => by omega, fun _ => rfl⟩
  | some n =>
    rw [← narrow?_eq_some_iff.mp hn]
    simp

end FairDice
