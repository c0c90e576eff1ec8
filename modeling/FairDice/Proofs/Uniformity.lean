import Mathlib
import FairDice.Roller.Words

/-!
# Why a die from random words is fair

The products of the sides with all words, in the order of the words, are spaced
by the sides, so a window as wide as a number of sides times `m` has exactly `m`
of them wherever it lies. The words of a face are those with the product in a
window behind the face's point, and at least one word in two has its product in
such a window.
-/
namespace FairDice

variable {sides word face : UInt32}

/-- How often the sides can be doubled in 32 bits. -/
def leadingZeros (sides : UInt32) : Nat := sides.toBitVec.clz.toNat

/-- The last of the parts behind the point that are not passed over. -/
def zone (sides : UInt32) : UInt32 := (sides <<< UInt32.ofNat (leadingZeros sides)) - 1

theorem toNat_bounds_of_ne_zero (h : sides ≠ 0) :
    2 ^ (31 - leadingZeros sides) ≤ sides.toNat ∧
      sides.toNat < 2 ^ (32 - leadingZeros sides) := by
  have hne : sides.toBitVec ≠ 0#32 := fun hzero => h (UInt32.toBitVec_inj.mp hzero)
  exact ⟨BitVec.two_pow_sub_clz_le_toNat_of_ne_zero (by decide) hne,
    BitVec.toNat_lt_two_pow_sub_clz⟩

theorem leadingZeros_lt (h : sides ≠ 0) : leadingZeros sides < 32 := by
  by_contra hle
  have hpow : 32 - leadingZeros sides = 0 := by omega
  have hbounds := toNat_bounds_of_ne_zero h
  rw [hpow] at hbounds
  have hpos := Nat.two_pow_pos (31 - leadingZeros sides)
  omega

/-- Each face has as many words as two to the power of the leading zeros. -/
theorem wordsPerFace_eq (h : sides ≠ 0) : wordsPerFace sides = 2 ^ leadingZeros sides := by
  obtain ⟨hle, hlt⟩ := toNat_bounds_of_ne_zero h
  have hzeros := leadingZeros_lt h
  have hsides : sides.toNat ≠ 0 := fun hzero => h (UInt32.toNat_inj.mp hzero)
  have hlog : sides.toNat.log2 = 31 - leadingZeros sides := by
    refine (Nat.log2_eq_iff hsides).mpr ⟨hle, ?_⟩
    rwa [show 31 - leadingZeros sides + 1 = 32 - leadingZeros sides by omega]
  rw [wordsPerFace, hlog, Nat.one_shiftLeft]
  congr 1
  omega

/-- The windows fit behind the points, and fill at least half of what lies between two. -/
theorem width_bounds (h : sides ≠ 0) :
    2 ^ 31 ≤ sides.toNat * 2 ^ leadingZeros sides ∧
      sides.toNat * 2 ^ leadingZeros sides < UInt32.size := by
  obtain ⟨hle, hlt⟩ := toNat_bounds_of_ne_zero h
  have hzeros := leadingZeros_lt h
  constructor
  · calc 2 ^ 31 = 2 ^ (31 - leadingZeros sides) * 2 ^ leadingZeros sides := by
          rw [← Nat.pow_add]; congr 1; omega
      _ ≤ _ := Nat.mul_le_mul_right _ hle
  · calc sides.toNat * 2 ^ leadingZeros sides
        < 2 ^ (32 - leadingZeros sides) * 2 ^ leadingZeros sides :=
          Nat.mul_lt_mul_of_pos_right hlt (Nat.two_pow_pos _)
      _ = UInt32.size := by
          rw [← Nat.pow_add, show 32 - leadingZeros sides + leadingZeros sides = 32 by omega]

/-- The multiples of `r` in a window that is `m` of them wide are `m`, in a row. -/
theorem mul_mem_window_iff {r : ℕ} (hr : 0 < r) (start m n : ℕ) :
    start ≤ r * n ∧ r * n < start + r * m ↔ n ∈ Finset.Ico (start ⌈/⌉ r) (start ⌈/⌉ r + m) := by
  have hend : start ⌈/⌉ r + m = (start + r * m) ⌈/⌉ r := by
    rw [Nat.ceilDiv_eq_add_pred_div, Nat.ceilDiv_eq_add_pred_div, ← Nat.add_mul_div_left _ _ hr]
    congr 1
    omega
  rw [Finset.mem_Ico, ceilDiv_le_iff_le_mul hr, hend,
    lt_iff_lt_of_le_iff_le (ceilDiv_le_iff_le_mul hr)]

def windowStart (face : UInt32) : Nat := (face.toNat - 1) * UInt32.size

theorem toNat_mul_lt (h : sides ≠ 0) (word : UInt32) :
    sides.toNat * word.toNat < sides.toNat * UInt32.size := by
  have hsides : 0 < sides.toNat := Nat.pos_of_ne_zero fun hzero => h (UInt32.toNat_inj.mp hzero)
  exact Nat.mul_lt_mul_of_pos_left word.toNat_lt_size hsides

/-- A word leads to a face exactly if its product is in the window of the face. -/
theorem faceOfWord?_eq_some_iff (h : sides ≠ 0) :
    faceOfWord? sides word = some face ↔ 1 ≤ face.toNat ∧
      windowStart face ≤ sides.toNat * word.toNat ∧
      sides.toNat * word.toNat < windowStart face + sides.toNat * 2 ^ leadingZeros sides := by
  have hsides := sides.toNat_lt_size
  have hface := face.toNat_lt_size
  have hproduct := toNat_mul_lt h word
  have hwidth := (width_bounds h).2
  rw [faceOfWord?, wordsPerFace_eq h, Nat.mul_comm word.toNat]
  simp only [windowStart, UInt32.size] at *
  generalize sides.toNat * 2 ^ leadingZeros sides = width at *
  generalize sides.toNat * word.toNat = product at *
  have hofNat : (UInt32.ofNat (product / 4294967296 + 1)).toNat = product / 4294967296 + 1 :=
    UInt32.toNat_ofNat_of_lt' (by rw [UInt32.size]; omega)
  rw [Option.ite_none_right_eq_some, Option.some.injEq, ← UInt32.toNat_inj, hofNat]
  omega

/-- The zone is one below the sides shifted to the top bit. -/
theorem toNat_zone (h : sides ≠ 0) :
    (zone sides).toNat + 1 = sides.toNat * 2 ^ leadingZeros sides := by
  obtain ⟨hhalf, hwidth⟩ := width_bounds h
  have hzeros := leadingZeros_lt h
  have hshift : (sides <<< UInt32.ofNat (leadingZeros sides)).toNat =
      sides.toNat * 2 ^ leadingZeros sides := by
    have hofNat : (UInt32.ofNat (leadingZeros sides)).toNat = leadingZeros sides :=
      UInt32.toNat_ofNat_of_lt' (hzeros.trans (by decide))
    rw [UInt32.toNat_shiftLeft, hofNat, Nat.mod_eq_of_lt hzeros, Nat.shiftLeft_eq,
      Nat.mod_eq_of_lt hwidth]
  have hone : (1 : UInt32) ≤ sides <<< UInt32.ofNat (leadingZeros sides) := by
    rw [UInt32.le_iff_toNat_le, hshift, UInt32.toNat_one]
    omega
  rw [zone, UInt32.toNat_sub_of_le _ _ hone, hshift, UInt32.toNat_one]
  omega

/-- What a word leads to, by the arithmetic of words. -/
theorem faceOfWord?_eq (h : sides ≠ 0) (word : UInt32) :
    faceOfWord? sides word =
      if word * sides ≤ zone sides then
        some (UInt32.ofNat ((word.toNat * sides.toNat) >>> 32) + 1)
      else none := by
  have hzone : (word * sides ≤ zone sides) ↔
      word.toNat * sides.toNat % UInt32.size < sides.toNat * wordsPerFace sides := by
    rw [UInt32.le_iff_toNat_le, UInt32.toNat_mul, wordsPerFace_eq h, ← toNat_zone h,
      Nat.lt_succ_iff]
  have hface : UInt32.ofNat ((word.toNat * sides.toNat) >>> 32) + 1 =
      UInt32.ofNat (word.toNat * sides.toNat / UInt32.size + 1) := by
    rw [Nat.shiftRight_eq_div_pow, UInt32.ofNat_add]
    rfl
  simp only [hzone, hface]
  rfl

example : faceOfWord? 6 715827883 = some 2 ∧ faceOfWord? 6 4294967295 = none := by decide

theorem windowStart_add_le (h : sides ≠ 0) (hle : face ≤ sides) (hpos : 1 ≤ face) :
    windowStart face + sides.toNat * 2 ^ leadingZeros sides ≤ sides.toNat * UInt32.size := by
  have hwidth := (width_bounds h).2
  rw [UInt32.le_iff_toNat_le] at hle hpos
  rw [UInt32.toNat_one] at hpos
  calc windowStart face + sides.toNat * 2 ^ leadingZeros sides
      ≤ (sides.toNat - 1) * UInt32.size + UInt32.size :=
        Nat.add_le_add (Nat.mul_le_mul_right _ (by omega)) hwidth.le
    _ = sides.toNat * UInt32.size := by
        rw [← Nat.succ_mul]
        congr 1
        omega

/-- Every face of a die has as many words. -/
theorem ncard_words_of_face (h : sides ≠ 0) (hpos : 1 ≤ face) (hle : face ≤ sides) :
    {word | faceOfWord? sides word = some face}.ncard = 2 ^ leadingZeros sides := by
  have hsides : 0 < sides.toNat := Nat.pos_of_ne_zero fun hzero => h (UInt32.toNat_inj.mp hzero)
  have hface : 1 ≤ face.toNat := hpos
  let first := windowStart face ⌈/⌉ sides.toNat
  have hwords : UInt32.toNat '' {word | faceOfWord? sides word = some face} =
      Finset.Ico first (first + 2 ^ leadingZeros sides) := by
    ext n
    simp only [Set.mem_image, Set.mem_ofPred_eq, Finset.mem_coe]
    rw [← mul_mem_window_iff hsides]
    constructor
    · rintro ⟨word, hword, rfl⟩
      exact ((faceOfWord?_eq_some_iff h).mp hword).2
    · rintro ⟨hstart, hend⟩
      have hn : n < UInt32.size :=
        Nat.lt_of_mul_lt_mul_left (hend.trans_le (windowStart_add_le h hle hpos))
      refine ⟨UInt32.ofNat n, (faceOfWord?_eq_some_iff h).mpr ?_, UInt32.toNat_ofNat_of_lt' hn⟩
      rw [UInt32.toNat_ofNat_of_lt' hn]
      exact ⟨hface, hstart, hend⟩
  have hinjective : Function.Injective UInt32.toNat := fun _ _ => UInt32.toNat_inj.mp
  rw [← Set.ncard_image_of_injective _ hinjective, hwords, Set.ncard_coe_finset, Nat.card_Ico,
    Nat.add_sub_cancel_left]

theorem one_le_of_faceOfWord? (h : sides ≠ 0) (hword : faceOfWord? sides word = some face) :
    1 ≤ face ∧ face ≤ sides := by
  obtain ⟨hpos, hstart, -⟩ := (faceOfWord?_eq_some_iff h).mp hword
  have hlt : face.toNat - 1 < sides.toNat :=
    Nat.lt_of_mul_lt_mul_right (hstart.trans_lt (toNat_mul_lt h word))
  refine ⟨hpos, UInt32.le_iff_toNat_le.mpr ?_⟩
  omega

/-- The faces part the words that are not passed over into equal shares. -/
theorem ncard_accepted_words (h : sides ≠ 0) :
    {word | (faceOfWord? sides word).isSome}.ncard = sides.toNat * 2 ^ leadingZeros sides := by
  let faceOf (word : UInt32) : ℕ := ((faceOfWord? sides word).getD 0).toNat
  have hmaps : Set.MapsTo faceOf {word | (faceOfWord? sides word).isSome}.toFinset
      (Finset.Icc 1 sides.toNat) := by
    intro word hword
    simp only [Finset.mem_coe, Set.mem_toFinset, Set.mem_ofPred_eq] at hword
    obtain ⟨face, hface⟩ := Option.isSome_iff_exists.mp hword
    obtain ⟨hpos, hle⟩ := one_le_of_faceOfWord? h hface
    simp only [faceOf, hface, Option.getD_some, Finset.coe_Icc, Set.mem_Icc]
    exact ⟨hpos, hle⟩
  have hfiber : ∀ n ∈ Finset.Icc 1 sides.toNat,
      {word ∈ {word | (faceOfWord? sides word).isSome}.toFinset | faceOf word = n}.card =
        2 ^ leadingZeros sides := by
    intro n hn
    obtain ⟨hpos, hle⟩ := Finset.mem_Icc.mp hn
    have hn : (UInt32.ofNat n).toNat = n :=
      UInt32.toNat_ofNat_of_lt' (hle.trans_lt sides.toNat_lt_size)
    rw [← ncard_words_of_face h (UInt32.le_iff_toNat_le.mpr (hn.symm ▸ hpos))
      (UInt32.le_iff_toNat_le.mpr (hn.symm ▸ hle)), ← Set.ncard_coe_finset]
    congr 1
    ext word
    simp only [Finset.coe_filter, Set.mem_toFinset, Set.mem_ofPred_eq, faceOf]
    cases faceOfWord? sides word with
    | none => simp
    | some face => simp [← UInt32.toNat_inj, hn]
  rw [Set.ncard_eq_toFinset_card', Finset.card_eq_sum_card_fiberwise hmaps,
    Finset.sum_congr rfl hfiber, Finset.sum_const, Nat.card_Icc, Nat.add_sub_cancel, smul_eq_mul]

/-- What makes a die of so many sides fair: words lead to its faces, and to all of them alike. -/
structure IsFairDie (sides : UInt32) : Prop where
  faceOfWord?_eq : ∀ word, faceOfWord? sides word =
    if word * sides ≤ zone sides then
      some (UInt32.ofNat ((word.toNat * sides.toNat) >>> 32) + 1)
    else none
  face_mem : ∀ word face, faceOfWord? sides word = some face → 1 ≤ face ∧ face ≤ sides
  ncard_words : ∀ face, 1 ≤ face → face ≤ sides →
    {word | faceOfWord? sides word = some face}.ncard = 2 ^ leadingZeros sides
  half_accepted : 2 ^ 32 ≤ 2 * {word | (faceOfWord? sides word).isSome}.ncard

/-- Every die with a side is fair. -/
theorem isFairDie (h : sides ≠ 0) : IsFairDie sides where
  faceOfWord?_eq := faceOfWord?_eq h
  face_mem _ _ := one_le_of_faceOfWord? h
  ncard_words _ := ncard_words_of_face h
  half_accepted := by
    rw [ncard_accepted_words h]
    exact Nat.mul_le_mul_left 2 (width_bounds h).1

end FairDice
