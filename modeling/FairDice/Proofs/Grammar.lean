import FairDice.Expression.Operand
import Mathlib.Computability.Language

/-!
# The grammar of expressions, said twice

Once it is a language of words, in the manner of `[+-]? operand ([+-] operand)*`
with `operand = digit+ ('d' digit+)?`, and once a row of operands with the digits
each of them is written with. A word is in the language exactly when some row of
operands writes it.
-/
namespace FairDice

open scoped Computability

def IsNumeral (s : List Char) : Prop := s ≠ [] ∧ ∀ c ∈ s, c.isDigit

namespace Grammar

def operator : Language Char := {['+'], ['-']}

def digit : Language Char := {s | ∃ c : Char, c.isDigit ∧ s = [c]}

def numeral : Language Char := digit * digit∗

def operand : Language Char := numeral * (1 + {['d']} * numeral)

/-- An operator may stand in front of the first operand and has to stand in front of every other. -/
def expression : Language Char := (1 + operator) * operand * (operator * operand)∗

theorem mem_operator {s : List Char} : s ∈ operator ↔ ∃ sign : Sign, s = [sign.symbol] := by
  constructor
  · rintro (rfl | rfl)
    · exact ⟨.plus, rfl⟩
    · exact ⟨.minus, rfl⟩
  · rintro ⟨sign, rfl⟩
    cases sign with
    | plus => exact .inl rfl
    | minus => exact .inr rfl

theorem mem_digits {s : List Char} : s ∈ digit∗ ↔ ∀ c ∈ s, c.isDigit := by
  constructor
  · intro h
    obtain ⟨words, rfl, hwords⟩ := Language.mem_kstar.mp h
    intro c hc
    obtain ⟨word, hword, hc⟩ := List.mem_flatten.mp hc
    obtain ⟨d, hd, rfl⟩ := hwords word hword
    rwa [List.mem_singleton.mp hc]
  · intro h
    refine Language.mem_kstar.mpr ⟨s.map ([·]), ?_, ?_⟩
    · rw [← List.flatMap_def, List.flatMap_singleton']
    · intro word hword
      obtain ⟨c, hc, rfl⟩ := List.mem_map.mp hword
      exact ⟨c, h c hc, rfl⟩

/-- A numeral of the grammar is a text of digits that is not empty. -/
theorem mem_numeral {s : List Char} : s ∈ numeral ↔ IsNumeral s := by
  constructor
  · intro h
    obtain ⟨_, ⟨c, hc, rfl⟩, digits, hdigits, rfl⟩ := Language.mem_mul.mp h
    refine ⟨by simp, ?_⟩
    simpa [hc] using mem_digits.mp hdigits
  · rintro ⟨hne, hs⟩
    obtain ⟨c, digits, rfl⟩ := List.exists_cons_of_ne_nil hne
    rw [List.forall_mem_cons] at hs
    exact Language.mem_mul.mpr ⟨[c], ⟨c, hs.1, rfl⟩, digits, mem_digits.mpr hs.2, rfl⟩

end Grammar

/-- An operand with the digits it is written with, wherever it stands. -/
structure Written where
  sign? : Option Sign
  first : List Char
  sides? : Option (List Char)
  deriving DecidableEq, Repr

namespace Written

def body (w : Written) : List Char := w.first ++ (w.sides?.map ('d' :: ·)).getD []

def text (w : Written) : List Char := (w.sign?.map Sign.symbol).toList ++ w.body

structure IsWellFormed (w : Written) : Prop where
  first : IsNumeral w.first
  sides : ∀ digits ∈ w.sides?, IsNumeral digits

theorem IsWellFormed.body_mem {w : Written} (h : w.IsWellFormed) : w.body ∈ Grammar.operand := by
  refine Language.append_mem_mul (Grammar.mem_numeral.mpr h.first) ?_
  cases hs : w.sides? with
  | none => exact .inl rfl
  | some digits =>
    have hd := Grammar.mem_numeral.mpr (h.sides digits hs)
    exact .inr (Language.append_mem_mul (Set.mem_singleton ['d']) hd)

/-- A word of the grammar of operands is the body of an operand, and any sign may stand in front. -/
theorem exists_of_mem_operand {s : List Char} (h : s ∈ Grammar.operand) (sign? : Option Sign) :
    ∃ w : Written, w.IsWellFormed ∧ w.sign? = sign? ∧ w.body = s := by
  obtain ⟨first, hfirst, rest, hrest, rfl⟩ := Language.mem_mul.mp h
  have hfirst := Grammar.mem_numeral.mp hfirst
  rcases hrest with rfl | hrest
  · exact ⟨⟨sign?, first, none⟩, ⟨hfirst, by simp⟩, rfl, rfl⟩
  · obtain ⟨_, rfl, digits, hdigits, rfl⟩ := Language.mem_mul.mp hrest
    have hdigits := Grammar.mem_numeral.mp hdigits
    exact ⟨⟨sign?, first, some digits⟩, ⟨hfirst, by simpa using hdigits⟩, rfl, rfl⟩

end Written

/-- The text of operands that follow one another. -/
def rowText (ws : List Written) : List Char := (ws.map Written.text).flatten

@[simp] theorem rowText_nil : rowText [] = [] := rfl

@[simp] theorem rowText_cons (w : Written) (ws : List Written) :
    rowText (w :: ws) = w.text ++ rowText ws := rfl

@[simp] theorem rowText_append (ws vs : List Written) :
    rowText (ws ++ vs) = rowText ws ++ rowText vs := by simp [rowText]

/-- Operands in a row, with an operator in front of each but perhaps the first. -/
structure IsRow (ws : List Written) : Prop where
  wellFormed : ∀ w ∈ ws, w.IsWellFormed
  signed : ∀ w ∈ ws.tail, w.sign?.isSome

/-- The operands that a text is written with. -/
structure Writes (ws : List Written) (s : List Char) : Prop where
  ne_nil : ws ≠ []
  row : IsRow ws
  text : rowText ws = s

namespace Grammar

theorem text_mem_of_signed {w : Written} (h : w.IsWellFormed) (hw : w.sign?.isSome) :
    w.text ∈ operator * operand := by
  obtain ⟨sign, hsign⟩ := Option.isSome_iff_exists.mp hw
  have htext : w.text = [sign.symbol] ++ w.body := by simp [Written.text, hsign]
  rw [htext]
  exact Language.append_mem_mul (mem_operator.mpr ⟨sign, rfl⟩) h.body_mem

/-- An operand with or without its sign is one the grammar lets stand in front. -/
theorem text_mem {w : Written} (h : w.IsWellFormed) : w.text ∈ (1 + operator) * operand := by
  refine Language.append_mem_mul ?_ h.body_mem
  cases w.sign? with
  | none => exact .inl rfl
  | some sign => exact .inr (mem_operator.mpr ⟨sign, rfl⟩)

/-- A signed operand of the grammar is one operand's text. -/
theorem exists_signed_of_mem {s : List Char} (h : s ∈ operator * operand) :
    ∃ w : Written, w.IsWellFormed ∧ w.sign?.isSome ∧ w.text = s := by
  obtain ⟨_, hoperator, body, hbody, rfl⟩ := Language.mem_mul.mp h
  obtain ⟨sign, rfl⟩ := mem_operator.mp hoperator
  obtain ⟨w, hw, hsign, rfl⟩ := Written.exists_of_mem_operand hbody (some sign)
  exact ⟨w, hw, by simp [hsign], by simp [Written.text, hsign]⟩

theorem exists_signed_of_forall_mem {words : List (List Char)}
    (h : ∀ word ∈ words, word ∈ operator * operand) :
    ∃ ws : List Written, (∀ w ∈ ws, w.IsWellFormed) ∧ (∀ w ∈ ws, w.sign?.isSome) ∧
      rowText ws = words.flatten := by
  induction words with
  | nil => exact ⟨[], by simp, by simp, rfl⟩
  | cons word words ih =>
    rw [List.forall_mem_cons] at h
    obtain ⟨w, hw, hsign, rfl⟩ := exists_signed_of_mem h.1
    obtain ⟨ws, hws, hsigns, htext⟩ := ih h.2
    refine ⟨w :: ws, ?_, ?_, by simp [htext]⟩
    · exact List.forall_mem_cons.mpr ⟨hw, hws⟩
    · exact List.forall_mem_cons.mpr ⟨hsign, hsigns⟩

/-- A word is an expression exactly when operands in a row write it. -/
theorem mem_expression_iff {s : List Char} : s ∈ expression ↔ ∃ ws, Writes ws s := by
  constructor
  · intro h
    obtain ⟨_, hhead, tail, htail, rfl⟩ := Language.mem_mul.mp h
    obtain ⟨front, hfront, body, hbody, rfl⟩ := Language.mem_mul.mp hhead
    obtain ⟨words, rfl, hwords⟩ := Language.mem_kstar.mp htail
    obtain ⟨ws, hws, hsigns, htext⟩ := exists_signed_of_forall_mem hwords
    have hsign : ∃ sign? : Option Sign, front = (sign?.map Sign.symbol).toList := by
      rcases hfront with rfl | hfront
      · exact ⟨none, rfl⟩
      · obtain ⟨sign, rfl⟩ := mem_operator.mp hfront
        exact ⟨some sign, rfl⟩
    obtain ⟨sign?, rfl⟩ := hsign
    obtain ⟨w, hw, rfl, rfl⟩ := Written.exists_of_mem_operand hbody sign?
    refine ⟨w :: ws, by simp, ⟨?_, hsigns⟩, ?_⟩
    · exact List.forall_mem_cons.mpr ⟨hw, hws⟩
    · rw [rowText_cons, htext, Written.text]
  · rintro ⟨ws, hne, hrow, rfl⟩
    obtain ⟨w, ws, rfl⟩ := List.exists_cons_of_ne_nil hne
    have hws := (List.forall_mem_cons.mp hrow.wellFormed)
    refine Language.append_mem_mul (text_mem hws.1) (Language.join_mem_kstar ?_)
    intro word hword
    obtain ⟨v, hv, rfl⟩ := List.mem_map.mp hword
    exact text_mem_of_signed (hws.2 v hv) (hrow.signed v hv)

end Grammar
end FairDice
