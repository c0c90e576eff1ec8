import FairDice.Proofs.Grammar
import FairDice.Proofs.Numbers
import Mathlib

/-!
# Numerals of any length

The accumulator is one word, and each digit takes it through a product and a sum
that may leave the word. It gives up on exactly the numerals whose value leaves
64 bits, for good, and so reading answers what the digits are worth by their
places. Zeros in front are worth nothing, however many there are.
-/
namespace FairDice

/-- What digits are worth by their places, of which the last one counts once. -/
def placeValue (digits : List Char) : Nat := Nat.ofDigits 10 (digits.map digitValue).reverse

theorem placeValue_singleton (c : Char) : placeValue [c] = digitValue c := Nat.ofDigits_singleton ..

/-- Each digit behind them makes digits worth ten times as much. -/
theorem placeValue_append (front back : List Char) :
    placeValue (front ++ back) = placeValue front * 10 ^ back.length + placeValue back := by
  rw [placeValue, List.map_append, List.reverse_append, Nat.ofDigits_append, List.length_reverse,
    List.length_map, placeValue, placeValue]
  ring

/-- Accumulating digit by digit gives the place value. -/
theorem decimalValue_eq_placeValue (digits : List Char) :
    decimalValue digits = placeValue digits := by
  induction digits using List.reverseRecOn with
  | nil => rfl
  | append_singleton digits c ih =>
    rw [decimalValue_concat, placeValue_append, placeValue_singleton, ih]
    rfl

theorem placeValue_zeros (n : Nat) : placeValue (List.replicate n '0') = 0 := by
  induction n with
  | zero => rfl
  | succ n ih =>
    rw [List.replicate_succ', placeValue_append, ih, Nat.zero_mul, Nat.zero_add]
    rfl

theorem placeValue_zeros_append (n : Nat) (digits : List Char) :
    placeValue (List.replicate n '0' ++ digits) = placeValue digits := by
  rw [placeValue_append, placeValue_zeros, Nat.zero_mul, Nat.zero_add]

/-- The digits that count: all from the first on that is no zero. -/
def significant (digits : List Char) : List Char := digits.dropWhile (· = '0')

theorem placeValue_significant (digits : List Char) :
    placeValue (significant digits) = placeValue digits := by
  have hzeros : digits.takeWhile (· = '0') =
      List.replicate (digits.takeWhile (· = '0')).length '0' :=
    List.eq_replicate_of_mem fun c hc => by simpa using List.mem_takeWhile_imp hc
  have hsplit : digits.takeWhile (· = '0') ++ significant digits = digits :=
    List.takeWhile_append_dropWhile
  rw [← placeValue_zeros_append (digits.takeWhile (· = '0')).length, ← hzeros, hsplit]

theorem digitValue_bounds {c : Char} (h : c.isDigit) :
    digitValue c < 10 ∧ (c ≠ '0' → 1 ≤ digitValue c) := by
  obtain ⟨hfirst, hlast⟩ : 48 ≤ c.toNat ∧ c.toNat ≤ 57 := Char.isDigit_iff_toNat.mp h
  have hdigit : digitValue c = c.toNat - 48 := rfl
  refine ⟨by omega, fun hzero => ?_⟩
  have hne : c.toNat ≠ 48 := fun heq => hzero (Char.toNat_inj.mp heq)
  omega

/-- Digits have a value below the power of ten for their number. -/
theorem placeValue_lt {digits : List Char} (h : ∀ c ∈ digits, c.isDigit) :
    placeValue digits < 10 ^ digits.length := by
  have hdigits : ∀ value ∈ (digits.map digitValue).reverse, value < 10 := by
    intro value hvalue
    obtain ⟨c, hc, rfl⟩ := List.mem_map.mp (List.mem_reverse.mp hvalue)
    exact (digitValue_bounds (h c hc)).1
  simpa [placeValue] using Nat.ofDigits_lt_base_pow_length (by decide) hdigits

/-- How many digits count tells how large the number is, up to a power of ten. -/
theorem placeValue_lt_pow_iff {digits : List Char} (h : ∀ c ∈ digits, c.isDigit) (n : Nat) :
    placeValue digits < 10 ^ n ↔ (significant digits).length ≤ n := by
  have hdigits : ∀ c ∈ significant digits, c.isDigit :=
    fun c hc => h c ((List.dropWhile_sublist _).subset hc)
  rw [← placeValue_significant digits]
  constructor
  · intro hlt
    cases hcount : significant digits with
    | nil => exact Nat.zero_le n
    | cons c rest =>
      have hzero : c ≠ '0' := by
        have hhead := List.head?_dropWhile_not (· = '0') digits
        rw [← significant, hcount] at hhead
        simpa using hhead
      have hc : 1 ≤ digitValue c := (digitValue_bounds (hdigits c (by simp [hcount]))).2 hzero
      rw [hcount, ← List.singleton_append, placeValue_append, placeValue_singleton] at hlt
      have hle : 1 * 10 ^ rest.length ≤ digitValue c * 10 ^ rest.length :=
        Nat.mul_le_mul_right _ hc
      exact (Nat.pow_lt_pow_iff_right (by decide)).mp (show 10 ^ rest.length < 10 ^ n by omega)
  · intro hle
    exact (placeValue_lt hdigits).trans_le (Nat.pow_le_pow_right (by decide) hle)

def mulChecked (a b : UInt64) : Option UInt64 :=
  if a.toNat * b.toNat < UInt64.size then some (a * b) else none

def addChecked (a b : UInt64) : Option UInt64 :=
  if a.toNat + b.toNat < UInt64.size then some (a + b) else none

/-- One more digit in the accumulator, by a product and a sum. -/
def pushChecked (value : UInt64) (c : Char) : Option UInt64 :=
  (mulChecked value 10).bind (addChecked · (UInt64.ofNat (digitValue c)))

/-- If the product leaves the word, so does the sum. -/
theorem pushChecked_eq_pushDigit (value : UInt64) {c : Char} (h : c.isDigit) :
    pushChecked value c = pushDigit value c := by
  have hten : (10 : UInt64).toNat = 10 := rfl
  have hsize : 10 ≤ UInt64.size := by decide
  have hdigit : (UInt64.ofNat (digitValue c)).toNat = digitValue c :=
    UInt64.toNat_ofNat_of_lt' ((digitValue_bounds h).1.trans_le hsize)
  rw [pushChecked, mulChecked, pushDigit_eq, hten]
  by_cases hproduct : value.toNat * 10 < UInt64.size
  · have hexact : (value * 10).toNat = value.toNat * 10 := by
      rw [UInt64.toNat_mul, hten]
      exact Nat.mod_eq_of_lt hproduct
    have hsum : value * 10 + UInt64.ofNat (digitValue c) =
        UInt64.ofNat (value.toNat * 10 + digitValue c) := by
      rw [UInt64.ofNat_add, UInt64.ofNat_mul, UInt64.ofNat_toNat]
      rfl
    rw [if_pos hproduct, Option.bind_some, addChecked, hexact, hdigit, hsum]
  · have hsum : ¬value.toNat * 10 + digitValue c < UInt64.size := by omega
    rw [if_neg hproduct, if_neg hsum, Option.bind_none]

/-- The checked accumulator reads the same words. -/
theorem foldlM_pushChecked {digits : List Char} (h : ∀ c ∈ digits, c.isDigit) :
    digits.foldlM pushChecked 0 = readWord? digits := by
  rw [readWord?]
  generalize (0 : UInt64) = value
  induction digits generalizing value with
  | nil => rfl
  | cons c digits ih =>
    rw [List.forall_mem_cons] at h
    rw [List.foldlM_cons, List.foldlM_cons, pushChecked_eq_pushDigit value h.1]
    exact congrArg _ (funext (ih h.2))

/-- Digits fail to fit a word of 64 bits exactly from two to the power of 64 on. -/
theorem readWord?_eq_none_iff {digits : List Char} :
    readWord? digits = none ↔ 2 ^ 64 ≤ placeValue digits := by
  have hsize : UInt64.size = 2 ^ 64 := rfl
  rw [readWord?_eq, decimalValue_eq_placeValue, hsize]
  split
  · simp; omega
  · simp; omega

/-- Digits in front that leave the word make the number too large for good. -/
theorem readNumber?_eq_none_of_prefix {front digits : List Char} (h : front <+: digits)
    (hfront : readWord? front = none) : readNumber? digits = none := by
  obtain ⟨back, rfl⟩ := h
  rw [readNumber?, readWord?, List.foldlM_append, ← readWord?, hfront]
  rfl

theorem maxValue_eq : maxValue = 2 ^ 53 - 1 := rfl

/-- A number is read when its place value is within 53 bits, and as that value. -/
theorem map_toNat_readNumber?_eq_some_iff {digits : List Char} {n : Nat} :
    (readNumber? digits).map UInt64.toNat = some n ↔ n = placeValue digits ∧ n ≤ 2 ^ 53 - 1 := by
  rw [Option.map_eq_some_iff, ← decimalValue_eq_placeValue, ← maxValue_eq]
  constructor
  · rintro ⟨value, hread, rfl⟩
    obtain ⟨hvalue, hle⟩ := readNumber?_eq_some_iff.mp hread
    exact ⟨hvalue, hvalue ▸ hle⟩
  · rintro ⟨rfl, hle⟩
    have hsize : decimalValue digits < UInt64.size := hle.trans_lt maxValue_lt_size
    exact ⟨_, readNumber?_eq_some_iff.mpr ⟨UInt64.toNat_ofNat_of_lt' hsize, hle⟩,
      UInt64.toNat_ofNat_of_lt' hsize⟩

theorem readNumber?_eq_none_iff_placeValue {digits : List Char} :
    readNumber? digits = none ↔ 2 ^ 53 - 1 < placeValue digits := by
  rw [readNumber?_eq_none_iff, decimalValue_eq_placeValue, maxValue_eq]

/-- Fifteen digits that count are never too many. -/
theorem isSome_readNumber?_of_length_le {digits : List Char} (h : ∀ c ∈ digits, c.isDigit)
    (hlength : (significant digits).length ≤ 15) : (readNumber? digits).isSome := by
  have hlt := (placeValue_lt_pow_iff h 15).mpr hlength
  rw [Option.isSome_iff_ne_none, ne_eq, readNumber?_eq_none_iff_placeValue]
  omega

/-- Seventeen digits that count are always too many. -/
theorem readNumber?_eq_none_of_le_length {digits : List Char} (h : ∀ c ∈ digits, c.isDigit)
    (hlength : 17 ≤ (significant digits).length) : readNumber? digits = none := by
  have hge : ¬placeValue digits < 10 ^ 16 := by
    rw [placeValue_lt_pow_iff h]
    omega
  exact readNumber?_eq_none_iff_placeValue.mpr (by omega)

theorem readNumber?_zeros_append (n : Nat) (digits : List Char) :
    readNumber? (List.replicate n '0' ++ digits) = readNumber? digits := by
  rw [readNumber?_eq, readNumber?_eq]
  simp only [decimalValue_eq_placeValue, placeValue_zeros_append]

/-- A numeral of any length is read as what its digits are worth, if that is no more than the
largest number, and not at all otherwise. Neither where the accumulator leaves its word nor zeros
in front have a say in it. -/
theorem numerals_read_exactly (digits : List Char) (h : IsNumeral digits) :
    (∀ n : Nat, (readNumber? digits).map UInt64.toNat = some n ↔
      n = placeValue digits ∧ n ≤ 2 ^ 53 - 1) ∧
    (readNumber? digits = none ↔ 2 ^ 53 - 1 < placeValue digits) ∧
    readNumber? digits = (digits.foldlM pushChecked 0).filter (·.toNat ≤ 2 ^ 53 - 1) ∧
    (∀ front, front <+: digits →
      (front.foldlM pushChecked 0 = none ↔ 2 ^ 64 ≤ placeValue front) ∧
      (front.foldlM pushChecked 0 = none → readNumber? digits = none)) ∧
    ((significant digits).length ≤ 15 → (readNumber? digits).isSome) ∧
    (17 ≤ (significant digits).length → readNumber? digits = none) ∧
    ∀ n, readNumber? (List.replicate n '0' ++ digits) = readNumber? digits := by
  refine ⟨fun _ => map_toNat_readNumber?_eq_some_iff, readNumber?_eq_none_iff_placeValue, ?_, ?_,
    isSome_readNumber?_of_length_le h.2, readNumber?_eq_none_of_le_length h.2,
    fun n => readNumber?_zeros_append n digits⟩
  · rw [foldlM_pushChecked h.2]
    rfl
  · intro front hfront
    rw [foldlM_pushChecked fun c hc => h.2 c (hfront.subset hc)]
    exact ⟨readWord?_eq_none_iff, readNumber?_eq_none_of_prefix hfront⟩

/-- The largest number behind many zeros, and digits that leave the word and would come round to
one. -/
theorem numerals_read_exactly_around_word :
    let padded := "00000000009007199254740991".toList
    let large := "18446744073709551617".toList
    IsNumeral padded ∧ IsNumeral large ∧
      (readNumber? padded).map UInt64.toNat = some 9007199254740991 ∧
      large.foldlM pushChecked 0 = none ∧ readNumber? large = none := by
  intro padded large
  have hpadded : IsNumeral padded := ⟨by decide, List.all_eq_true.mp (by decide)⟩
  have hlarge : IsNumeral large := ⟨by decide, List.all_eq_true.mp (by decide)⟩
  obtain ⟨hread, -⟩ := numerals_read_exactly padded hpadded
  obtain ⟨-, -, -, hword, -⟩ := numerals_read_exactly large hlarge
  obtain ⟨hoverflow, hnone⟩ := hword large List.prefix_rfl
  have hvalue : 2 ^ 64 ≤ placeValue large := by
    rw [← decimalValue_eq_placeValue]
    decide
  refine ⟨hpadded, hlarge, (hread _).mpr ⟨?_, by decide⟩, hoverflow.mpr hvalue,
    hnone (hoverflow.mpr hvalue)⟩
  rw [← decimalValue_eq_placeValue]
  decide

end FairDice
