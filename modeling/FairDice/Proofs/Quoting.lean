import FairDice.Json.Reader
import Mathlib.Data.List.Basic

/-!
# Quoted texts read back

Each character of a text is written so that the reader takes it for itself,
whether it stands as it is, behind a backslash or as a number, and the closing
quote is the first quote without a backslash.
-/
namespace FairDice.Json

theorem unescape?_u : unescape? 'u' = none := by decide

theorem shortEscape?_quote : shortEscape? '"' = some '"' := by decide

theorem shortEscape?_backslash : shortEscape? '\\' = some '\\' := by decide

namespace Reading

/-- The reading after a text, if every character of it may come where it does. -/
def run (r : Reading) (s : List Char) : Option Reading := s.foldlM step r

@[simp] theorem run_nil (r : Reading) : r.run [] = some r := rfl

@[simp] theorem run_cons (r : Reading) (c : Char) (s : List Char) :
    r.run (c :: s) = (r.step c).bind (·.run s) := rfl

theorem run_append (r : Reading) (s t : List Char) :
    r.run (s ++ t) = (r.run s).bind (·.run t) := List.foldlM_append ..

variable (done : List Char) (o : Outline)

theorem step_backslash : step ⟨.text done none, o⟩ '\\' = some ⟨.escape done none, o⟩ := rfl

theorem step_letter {c letter : Char} (h : unescape? letter = some c) :
    step ⟨.escape done none, o⟩ letter = some ⟨.text (c :: done) none, o⟩ := by
  have hu : letter ≠ 'u' := by
    rintro rfl
    rw [unescape?_u] at h
    cases h
  simp [step, hu, h]

theorem step_plain {c : Char} (hc : shortEscape? c = none) (hcontrol : ¬c.toNat < 0x20) :
    step ⟨.text done none, o⟩ c = some ⟨.text (c :: done) none, o⟩ := by
  have hquote : c ≠ '"' := by
    rintro rfl
    rw [shortEscape?_quote] at hc
    cases hc
  have hbackslash : c ≠ '\\' := by
    rintro rfl
    rw [shortEscape?_backslash] at hc
    cases hc
  simp [step, hquote, hbackslash, hcontrol]

theorem unit_of_lt {n : Nat} (h : n < 0x20) :
    Scan.unit done none n = some (.text (Char.ofNat n :: done) none) := by
  have hfirst : ¬(0xD800 ≤ n ∧ n < 0xDC00) := by omega
  have hsecond : ¬(0xDC00 ≤ n ∧ n < 0xE000) := by omega
  simp [Scan.unit, hfirst, hsecond]

/-- A control character is the number that its four digits write. -/
theorem run_code {c : Char} (h : c.toNat < 0x20) :
    run ⟨.text done none, o⟩
        ['\\', 'u', '0', '0', hexDigit (c.toNat / 16), hexDigit (c.toNat % 16)] =
      some ⟨.text (c :: done) none, o⟩ := by
  have hhigh := hexValue?_hexDigit (c.toNat / 16) (by omega)
  have hlow := hexValue?_hexDigit (c.toNat % 16) (by omega)
  have hzero : hexValue? '0' = some 0 := by decide
  have hvalue : c.toNat / 16 * 16 + c.toNat % 16 = c.toNat := by omega
  have hchar : Char.ofNat c.toNat = c := Char.ofNat_toNat c
  have hunit := unit_of_lt done h
  simp [step, hzero, hhigh, hlow, hvalue, hunit, hchar]

/-- A character of a text is read as itself. -/
theorem run_escape (c : Char) :
    run ⟨.text done none, o⟩ (escape c) = some ⟨.text (c :: done) none, o⟩ := by
  rw [escape]
  cases hshort : shortEscape? c with
  | some letter =>
    have hletter := step_letter done o (unescape?_of_shortEscape? hshort)
    simp only [run_cons, step_backslash, Option.bind_some, hletter, run_nil]
  | none =>
    dsimp only
    split
    · next hcontrol => exact run_code done o hcontrol
    · next hcontrol =>
      rw [run_cons, step_plain done o hshort hcontrol]
      rfl

/-- Whatever is escaped is read back. -/
theorem run_flatMap_escape (s : List Char) :
    run ⟨.text done none, o⟩ (s.flatMap escape) = some ⟨.text (s.reverse ++ done) none, o⟩ := by
  induction s generalizing done with
  | nil => rfl
  | cons c s ih =>
    rw [List.flatMap_cons, run_append, run_escape, Option.bind_some, ih]
    simp

/-- A quoted text is read as the text. -/
theorem run_quote (text : String) :
    run ⟨.between, o⟩ (quote text) = (o.quoted text).map (⟨.between, ·⟩) := by
  have hopen : step ⟨.between, o⟩ '"' = some ⟨.text [] none, o⟩ := rfl
  rw [quote, List.cons_append, run_cons, hopen, Option.bind_some, run_append, run_flatMap_escape,
    Option.bind_some, run_cons]
  cases hquoted : o.quoted text <;> simp [step, hquoted]

end Reading
end FairDice.Json
