import FairDice.Text.Blank
import Mathlib.Data.List.Basic

/-!
# White space taken out of a text

The characters with the property `White_Space` are listed here one by one, and
taken out of a text one by one. What is left is what the reading of expressions
starts from, whatever the text.
-/
namespace FairDice

/-- The code points with the property `White_Space`. -/
def whiteSpace : List Nat :=
  [0x09, 0x0A, 0x0B, 0x0C, 0x0D, 0x20, 0x85, 0xA0, 0x1680, 0x2000, 0x2001, 0x2002, 0x2003, 0x2004,
    0x2005, 0x2006, 0x2007, 0x2008, 0x2009, 0x200A, 0x2028, 0x2029, 0x202F, 0x205F, 0x3000]

/-- The ranges of blanks hold the code points with the property, and no others. -/
theorem isBlank_iff {c : Char} : isBlank c ↔ c.toNat ∈ whiteSpace := by
  simp only [isBlank, blankRanges, whiteSpace, List.any_cons, List.any_nil, List.mem_cons,
    List.not_mem_nil, Bool.or_eq_true, Bool.and_eq_true, decide_eq_true_eq, Bool.false_eq_true,
    or_false]
  omega

/-- The second text is what the first one leaves when all white space is taken out of it. -/
inductive StripsTo : List Char → List Char → Prop
  | nil : StripsTo [] []
  | blank {c : Char} {s t : List Char} : c.toNat ∈ whiteSpace → StripsTo s t → StripsTo (c :: s) t
  | keep {c : Char} {s t : List Char} :
    c.toNat ∉ whiteSpace → StripsTo s t → StripsTo (c :: s) (c :: t)

/-- A text strips to the text without its blanks. -/
theorem stripsTo_stripBlanks (s : List Char) : StripsTo s (stripBlanks s) := by
  induction s with
  | nil => exact .nil
  | cons c s ih =>
    rw [stripBlanks, List.filter_cons]
    cases hc : isBlank c with
    | true => exact .blank (isBlank_iff.mp hc) ih
    | false => exact .keep (fun hmem => by simp [isBlank_iff.mpr hmem] at hc) ih

theorem StripsTo.eq_stripBlanks {s t : List Char} (h : StripsTo s t) : t = stripBlanks s := by
  induction h with
  | nil => rfl
  | blank hc _ ih => rw [ih, stripBlanks, stripBlanks, List.filter_cons, isBlank_iff.mpr hc]; rfl
  | @keep c s t hc _ ih =>
    have hkept : isBlank c = false := by rwa [← Bool.not_eq_true, isBlank_iff]
    rw [ih, stripBlanks, stripBlanks, List.filter_cons, hkept]
    rfl

/-- A text leaves one text only, and that is the one that is read. -/
theorem stripsTo_iff {s t : List Char} : StripsTo s t ↔ t = stripBlanks s :=
  ⟨StripsTo.eq_stripBlanks, fun h => h ▸ stripsTo_stripBlanks s⟩

end FairDice
