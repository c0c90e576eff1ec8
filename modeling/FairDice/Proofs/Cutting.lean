import FairDice.Proofs.Reading
import Mathlib.Data.List.SplitBy

/-!
# Operands cut out of a text

These are the operands that the text is written with. A row of operands comes
apart at its operators, each piece shows how its operand is written, and so there
is one row at most for any text.
-/
namespace FairDice

namespace Written

def placedAt (w : Written) (start : Nat) : Operand := ⟨w.sign?, w.first, w.sides?, start⟩

@[simp] theorem text_placedAt (w : Written) (start : Nat) : (w.placedAt start).text = w.text := by
  simp [Written.placedAt, Operand.text, text, body, List.append_assoc]

@[simp] theorem span_placedAt (w : Written) (start : Nat) :
    (w.placedAt start).span = ⟨start, start + byteLength w.text⟩ := by
  simp [Operand.span, Written.placedAt, ← text_placedAt w start]

end Written

/-- The operands of a row, each where it stands if the row begins `start` bytes into an expression. -/
def placed (start : Nat) : List Written → List Operand
  | [] => []
  | w :: ws => w.placedAt start :: placed (start + byteLength w.text) ws

@[simp] theorem placed_nil (start : Nat) : placed start [] = [] := rfl

@[simp] theorem placed_cons (start : Nat) (w : Written) (ws : List Written) :
    placed start (w :: ws) = w.placedAt start :: placed (start + byteLength w.text) ws := rfl

@[simp] theorem length_placed (start : Nat) (ws : List Written) :
    (placed start ws).length = ws.length := by
  induction ws generalizing start with
  | nil => rfl
  | cons w ws ih => simp [ih]

@[simp] theorem map_text_placed (start : Nat) (ws : List Written) :
    (placed start ws).map Operand.text = ws.map Written.text := by
  induction ws generalizing start with
  | nil => rfl
  | cons w ws ih => simp [ih]

/-- Different rows of operands are placed differently. -/
theorem placed_injective (start : Nat) : Function.Injective (placed start) := by
  intro ws
  induction ws generalizing start with
  | nil =>
    intro vs h
    cases vs with
    | nil => rfl
    | cons v vs => cases h
  | cons w ws ih =>
    intro vs h
    cases vs with
    | nil => cases h
    | cons v vs =>
      obtain ⟨hw, hws⟩ := List.cons.inj h
      have hwv : w = v := by
        cases w
        cases v
        simpa [Written.placedAt] using hw
      subst hwv
      rw [ih _ hws]

namespace Written

/-- Without its operator an operand has digits in it and perhaps a `d`. -/
theorem IsWellFormed.isDigit_or_eq_of_mem_body {w : Written} (h : w.IsWellFormed) {c : Char}
    (hc : c ∈ w.body) : c.isDigit ∨ c = 'd' := by
  rw [body, List.mem_append] at hc
  rcases hc with hc | hc
  · exact .inl (h.first.2 c hc)
  · cases hs : w.sides? with
    | none => simp [hs] at hc
    | some digits =>
      simp only [hs, Option.map_some, Option.getD_some, List.mem_cons] at hc
      rcases hc with rfl | hc
      · exact .inr rfl
      · exact .inl ((h.sides digits hs).2 c hc)

theorem IsWellFormed.isOperator_body {w : Written} (h : w.IsWellFormed) :
    ∀ c ∈ w.body, isOperator c = false := by
  intro c hc
  rcases h.isDigit_or_eq_of_mem_body hc with hdigit | rfl
  · exact isOperator_eq_false_of_isDigit hdigit
  · decide

theorem IsWellFormed.body_ne_nil {w : Written} (h : w.IsWellFormed) : w.body ≠ [] := by
  simp [body, h.first.1]

theorem IsWellFormed.text_ne_nil {w : Written} (h : w.IsWellFormed) : w.text ≠ [] := by
  simp [text, h.body_ne_nil]

/-- Only the first character of an operand can be an operator. -/
theorem IsWellFormed.isOperator_tail {w : Written} (h : w.IsWellFormed) :
    ∀ c ∈ w.text.tail, isOperator c = false := by
  intro c hc
  apply h.isOperator_body
  cases hs : w.sign? with
  | none =>
    simp only [text, hs, Option.map_none, Option.toList_none, List.nil_append] at hc
    exact List.mem_of_mem_tail hc
  | some sign => simpa [text, hs] using hc

theorem head?_text_of_signed {w : Written} (h : w.sign?.isSome) :
    ∃ sign : Sign, w.text.head? = some sign.symbol := by
  obtain ⟨sign, hs⟩ := Option.isSome_iff_exists.mp h
  exact ⟨sign, by simp [text, hs]⟩

end Written

theorem isChain_of_forall_mem_tail {α : Type} {r : α → α → Prop} {s : List α}
    (h : ∀ a ∈ s, ∀ b ∈ s.tail, r a b) : s.IsChain r := by
  induction s with
  | nil => exact List.isChain_nil
  | cons a s ih =>
    cases s with
    | nil => exact List.isChain_singleton a
    | cons b s =>
      refine List.isChain_cons_cons.mpr ⟨h a (by simp) b (by simp), ih ?_⟩
      intro c hc d hd
      exact h c (List.mem_cons_of_mem _ hc) d (List.mem_cons_of_mem _ hd)

/-- Pieces come apart again if all but the first begin with an operator and hold no other. -/
theorem pieces_flatten {l : List (List Char)} (hne : [] ∉ l)
    (htail : ∀ piece ∈ l, ∀ c ∈ piece.tail, isOperator c = false)
    (hhead : ∀ piece ∈ l.tail, ∃ sign : Sign, piece.head? = some sign.symbol) :
    pieces l.flatten = l := by
  refine List.splitBy_flatten hne ?_ ?_
  · intro piece hpiece
    apply isChain_of_forall_mem_tail
    intro _ _ c hc
    simp [htail piece hpiece c hc]
  · apply isChain_of_forall_mem_tail
    intro piece hpiece next hnext
    have hnext' : next ≠ [] := ne_of_mem_of_not_mem (List.mem_of_mem_tail hnext) hne
    refine ⟨ne_of_mem_of_not_mem hpiece hne, hnext', ?_⟩
    obtain ⟨sign, hsign⟩ := hhead next hnext
    rw [List.head?_eq_some_head hnext'] at hsign
    simp [Option.some.inj hsign]

/-- A row of operands comes apart at the operators in front of them. -/
theorem pieces_rowText {ws : List Written} (h : IsRow ws) :
    pieces (rowText ws) = ws.map Written.text := by
  refine pieces_flatten ?_ ?_ ?_
  · intro hnil
    obtain ⟨w, hw, htext⟩ := List.mem_map.mp hnil
    exact (h.wellFormed w hw).text_ne_nil htext
  · intro piece hpiece
    obtain ⟨w, hw, rfl⟩ := List.mem_map.mp hpiece
    exact (h.wellFormed w hw).isOperator_tail
  · rw [← List.map_tail]
    intro piece hpiece
    obtain ⟨w, hw, rfl⟩ := List.mem_map.mp hpiece
    exact Written.head?_text_of_signed (h.signed w hw)

namespace Written

theorem IsWellFormed.ofOperator?_head? {w : Written} (h : w.IsWellFormed) :
    w.text.head?.bind Sign.ofOperator? = w.sign? := by
  cases hs : w.sign? with
  | some sign => simp [text, hs]
  | none =>
    obtain ⟨c, digits, hfirst⟩ := List.exists_cons_of_ne_nil h.first.1
    have hc : isOperator c = false := h.isOperator_body c (by simp [body, hfirst])
    have hnone : Sign.ofOperator? c = none := by simpa [isOperator] using hc
    simp [text, hs, body, hfirst, hnone]

theorem IsWellFormed.takeWhile_body {w : Written} (h : w.IsWellFormed) :
    w.body.takeWhile Char.isDigit = w.first := by
  rw [body, List.takeWhile_append_of_pos h.first.2]
  cases w.sides? <;> simp

theorem IsWellFormed.dropWhile_body {w : Written} (h : w.IsWellFormed) :
    w.body.dropWhile Char.isDigit = (w.sides?.map ('d' :: ·)).getD [] := by
  rw [body, List.dropWhile_append_of_pos h.first.2]
  cases w.sides? <;> simp

/-- A piece shows how its operand is written. -/
theorem IsWellFormed.ofPiece_text {w : Written} (h : w.IsWellFormed) (start : Nat) :
    Operand.ofPiece start w.text = w.placedAt start := by
  have hbody : (if w.sign?.isSome then w.text.tail else w.text) = w.body := by
    cases hs : w.sign? <;> simp [text, hs]
  simp only [Operand.ofPiece, h.ofOperator?_head?, hbody, h.takeWhile_body, h.dropWhile_body]
  cases hs : w.sides? <;> simp [placedAt, hs]

end Written

/-- The pieces of a row are read as the operands of the row, each at its own place. -/
theorem ofPieces_map_text {ws : List Written} (h : ∀ w ∈ ws, w.IsWellFormed) (start : Nat) :
    Operand.ofPieces start (ws.map Written.text) = placed start ws := by
  induction ws generalizing start with
  | nil => rfl
  | cons w ws ih =>
    rw [List.forall_mem_cons] at h
    rw [List.map_cons, Operand.ofPieces, placed_cons, h.1.ofPiece_text, ih h.2]

/-- The operands of a text are the ones that it is written with. -/
theorem Writes.operands_eq {ws : List Written} {s : List Char} (h : Writes ws s) :
    operands s = .ok (placed 0 ws) := by
  have hmisfit : Place.start.misfit? 0 s = none :=
    (Place.misfit?_eq_none_iff _ _ _).mpr (Place.after?_any_isEnd_iff.mpr ⟨ws, h⟩)
  obtain ⟨-, hrow, rfl⟩ := h
  simp only [operands, hmisfit, pieces_rowText hrow]
  rw [ofPieces_map_text hrow.wellFormed]

/-- The operands that are found are those some row writes, at their places. -/
theorem operands_eq_ok_iff {s : List Char} {ops : List Operand} :
    operands s = .ok ops ↔ ∃ ws, Writes ws s ∧ placed 0 ws = ops := by
  constructor
  · intro h
    have hmisfit : Place.start.misfit? 0 s = none := by
      cases hm : Place.start.misfit? 0 s with
      | none => rfl
      | some misfit => simp [operands, hm] at h
    obtain ⟨ws, hws⟩ := Place.after?_any_isEnd_iff.mp ((Place.misfit?_eq_none_iff _ _ _).mp hmisfit)
    exact ⟨ws, hws, Except.ok.inj (hws.operands_eq.symm.trans h)⟩
  · rintro ⟨ws, hws, rfl⟩
    exact hws.operands_eq

/-- A text is refused for its misfit, and for nothing else. -/
theorem operands_eq_error_iff {s : List Char} {misfit : Misfit} :
    operands s = .error misfit ↔ Place.start.misfit? 0 s = some misfit := by
  cases h : Place.start.misfit? 0 s <;> simp [operands, h]

/-- A text has a misfit exactly when it is no expression. -/
theorem exists_misfit_iff {s : List Char} :
    (∃ misfit, Place.start.misfit? 0 s = some misfit) ↔ s ∉ Grammar.expression := by
  rw [Grammar.mem_expression_iff, ← Place.after?_any_isEnd_iff, ← Place.misfit?_eq_none_iff _ 0]
  exact Option.ne_none_iff_exists'.symm

/-- A text is written with one row of operands at most. -/
theorem Writes.unique {ws vs : List Written} {s : List Char} (hws : Writes ws s)
    (hvs : Writes vs s) : ws = vs :=
  placed_injective 0 (Except.ok.inj (hws.operands_eq.symm.trans hvs.operands_eq))

end FairDice
