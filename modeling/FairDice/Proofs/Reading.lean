import FairDice.Proofs.Grammar
import Mathlib.Data.List.Induction

/-!
# What a reading has seen when it stands at a place

Each place belongs to the texts of one shape, whole operands and perhaps the
beginning of one more, and the reading gets to a place on exactly the texts of
its shape. It may end, then, on exactly the expressions.
-/
namespace FairDice

theorem isOperator_eq_false_of_isDigit {c : Char} (h : c.isDigit) : isOperator c = false := by
  rw [Bool.eq_false_iff]
  intro hc
  rcases isOperator_iff.mp hc with rfl | rfl <;> exact absurd h (by decide)

theorem exists_symbol_of_isOperator {c : Char} (h : isOperator c) : ∃ s : Sign, c = s.symbol := by
  obtain ⟨s, hs⟩ := Option.isSome_iff_exists.mp h
  exact ⟨s, Sign.eq_symbol_of_ofOperator? hs⟩

theorem isNumeral_singleton {c : Char} (h : c.isDigit) : IsNumeral [c] := by
  simp [IsNumeral, h]

theorem IsNumeral.concat {s : List Char} {c : Char} (hs : IsNumeral s) (hc : c.isDigit) :
    IsNumeral (s ++ [c]) := by
  refine ⟨by simp, ?_⟩
  intro d hd
  rcases List.mem_append.mp hd with hd | hd
  · exact hs.2 d hd
  · rwa [List.mem_singleton.mp hd]

theorem isRow_nil : IsRow [] := ⟨by simp, by simp⟩

/-- A row grows at its end by any operand, which needs an operator unless the row was empty. -/
theorem isRow_concat_iff {ws : List Written} {w : Written} :
    IsRow (ws ++ [w]) ↔ IsRow ws ∧ w.IsWellFormed ∧ (ws = [] ∨ w.sign?.isSome) := by
  cases ws with
  | nil =>
    constructor
    · intro h
      exact ⟨isRow_nil, h.wellFormed w (by simp), .inl rfl⟩
    · rintro ⟨-, hw, -⟩
      exact ⟨by simpa using hw, by simp⟩
  | cons v vs =>
    constructor
    · intro h
      refine ⟨⟨?_, ?_⟩, h.wellFormed w (by simp), .inr (h.signed w (by simp))⟩
      · intro u hu
        exact h.wellFormed u (List.mem_append_left _ hu)
      · intro u hu
        exact h.signed u (List.mem_append_left _ hu)
    · rintro ⟨hrow, hw, hsign⟩
      have hsign : w.sign?.isSome := by simpa using hsign
      refine ⟨?_, ?_⟩
      · intro u hu
        rcases List.mem_append.mp hu with hu | hu
        · exact hrow.wellFormed u hu
        · rwa [List.mem_singleton.mp hu]
      · intro u hu
        rcases List.mem_append.mp hu with hu | hu
        · exact hrow.signed u hu
        · rwa [List.mem_singleton.mp hu]

/-- The last operand of a row may be written on, if it keeps its operator. -/
theorem IsRow.rewrite_last {ws : List Written} {w v : Written} (h : IsRow (ws ++ [w]))
    (hv : v.IsWellFormed) (hsign : v.sign? = w.sign?) : IsRow (ws ++ [v]) := by
  obtain ⟨hrow, -, hw⟩ := isRow_concat_iff.mp h
  exact isRow_concat_iff.mpr ⟨hrow, hv, hsign ▸ hw⟩

namespace Written

theorem text_eq_of_sides?_eq_none {w : Written} (h : w.sides? = none) :
    w.text = (w.sign?.map Sign.symbol).toList ++ w.first := by
  simp [text, body, h]

end Written

namespace Place

/-- The place after a digit, which may follow anywhere. -/
def afterDigit : Place → Place
  | .start | .operator | .first => .first
  | .die | .sides => .sides

def takesOperator : Place → Bool
  | .start | .first | .sides => true
  | .operator | .die => false

/-- A digit can be read anywhere. -/
theorem next_of_isDigit (p : Place) {c : Char} (h : c.isDigit) : p.next c = some p.afterDigit := by
  cases p <;> simp [next, afterDigit, h]

theorem next_symbol {p : Place} (sign : Sign) (h : p.takesOperator) :
    p.next sign.symbol = some .operator := by
  cases sign <;> cases p <;> first | rfl | cases h

/-- All that a step of a reading can be: over a digit, over the `d` of dice, or over an operator. -/
theorem next_cases {p q : Place} {c : Char} (h : p.next c = some q) :
    (c.isDigit ∧ q = p.afterDigit) ∨ (c = 'd' ∧ p = .first ∧ q = .die) ∨
      ∃ sign : Sign, c = sign.symbol ∧ p.takesOperator ∧ q = .operator := by
  by_cases hdigit : c.isDigit
  · rw [next_of_isDigit p hdigit] at h
    exact .inl ⟨hdigit, (Option.some.inj h).symm⟩
  by_cases hoperator : isOperator c
  · obtain ⟨sign, rfl⟩ := exists_symbol_of_isOperator hoperator
    refine .inr (.inr ⟨sign, rfl, ?_⟩)
    cases sign <;> cases p <;> simp_all [next, takesOperator, Sign.symbol]
  · right; left
    cases p <;> simp_all [next]

/-- The texts that a reading from the start has seen where it stands at a place. -/
inductive Reads : Place → List Char → Prop
  | start : Reads .start []
  | operator {ws : List Written} (sign : Sign) (row : IsRow ws) :
      Reads .operator (rowText ws ++ [sign.symbol])
  | first {ws : List Written} {w : Written} (row : IsRow (ws ++ [w])) (constant : w.sides? = none) :
      Reads .first (rowText (ws ++ [w]))
  | die {ws : List Written} {w : Written} (row : IsRow (ws ++ [w])) (constant : w.sides? = none) :
      Reads .die (rowText (ws ++ [w]) ++ ['d'])
  | sides {ws : List Written} {w : Written} (row : IsRow (ws ++ [w])) (dice : w.sides?.isSome) :
      Reads .sides (rowText (ws ++ [w]))

theorem Reads.of_digit_operator {ws : List Written} (sign? : Option Sign) (hrow : IsRow ws)
    (hsign : ws = [] ∨ sign?.isSome) {c : Char} (hc : c.isDigit) :
    Reads .first (rowText ws ++ (sign?.map Sign.symbol).toList ++ [c]) := by
  have hw : (⟨sign?, [c], none⟩ : Written).IsWellFormed := ⟨isNumeral_singleton hc, by simp⟩
  have h := Reads.first (isRow_concat_iff.mpr ⟨hrow, hw, hsign⟩) rfl
  simpa [Written.text, Written.body] using h

theorem Reads.of_digit_first {ws : List Written} {w : Written} (hrow : IsRow (ws ++ [w]))
    (hw : w.sides? = none) {c : Char} (hc : c.isDigit) :
    Reads .first (rowText (ws ++ [w]) ++ [c]) := by
  obtain ⟨-, hform, -⟩ := isRow_concat_iff.mp hrow
  have hv : ({ w with first := w.first ++ [c] } : Written).IsWellFormed :=
    ⟨hform.first.concat hc, by simp [hw]⟩
  have h := Reads.first (hrow.rewrite_last hv rfl) hw
  simpa [Written.text_eq_of_sides?_eq_none, hw] using h

theorem Reads.of_digit_die {ws : List Written} {w : Written} (hrow : IsRow (ws ++ [w]))
    (hw : w.sides? = none) {c : Char} (hc : c.isDigit) :
    Reads .sides (rowText (ws ++ [w]) ++ ['d'] ++ [c]) := by
  obtain ⟨-, hform, -⟩ := isRow_concat_iff.mp hrow
  have hv : ({ w with sides? := some [c] } : Written).IsWellFormed :=
    ⟨hform.first, by simpa using isNumeral_singleton hc⟩
  have h := Reads.sides (hrow.rewrite_last hv rfl) rfl
  simpa [Written.text, Written.body, hw] using h

theorem Reads.of_digit_sides {ws : List Written} {w : Written} (hrow : IsRow (ws ++ [w]))
    (hw : w.sides?.isSome) {c : Char} (hc : c.isDigit) :
    Reads .sides (rowText (ws ++ [w]) ++ [c]) := by
  obtain ⟨digits, hdigits⟩ := Option.isSome_iff_exists.mp hw
  obtain ⟨-, hform, -⟩ := isRow_concat_iff.mp hrow
  have hv : ({ w with sides? := some (digits ++ [c]) } : Written).IsWellFormed :=
    ⟨hform.first, by simpa using (hform.sides digits hdigits).concat hc⟩
  have h := Reads.sides (hrow.rewrite_last hv rfl) rfl
  simpa [Written.text, Written.body, hdigits] using h

/-- One more character takes a reading from what it has seen to what it has seen then. -/
theorem Reads.next {p q : Place} {s : List Char} {c : Char} (h : Reads p s)
    (hc : p.next c = some q) : Reads q (s ++ [c]) := by
  rcases next_cases hc with ⟨hdigit, rfl⟩ | ⟨rfl, rfl, rfl⟩ | ⟨sign, rfl, hp, rfl⟩
  · cases h with
    | start => exact Reads.of_digit_operator none isRow_nil (.inl rfl) hdigit
    | operator sign row => exact Reads.of_digit_operator (some sign) row (.inr rfl) hdigit
    | first row constant => exact Reads.of_digit_first row constant hdigit
    | die row constant => exact Reads.of_digit_die row constant hdigit
    | sides row dice => exact Reads.of_digit_sides row dice hdigit
  · cases h with
    | first row constant => exact Reads.die row constant
  · cases h with
    | start => exact Reads.operator sign isRow_nil
    | first row constant => exact Reads.operator sign row
    | sides row dice => exact Reads.operator sign row
    | operator sign row => cases hp
    | die row constant => cases hp

/-- The shape of what has been seen holds at every place of a reading from the start. -/
theorem reads_of_after? {q : Place} {s : List Char} (h : Place.start.after? s = some q) :
    Reads q s := by
  induction s using List.reverseRecOn generalizing q with
  | nil =>
    cases h
    exact Reads.start
  | append_singleton s c ih =>
    rw [after?_append] at h
    obtain ⟨p, hp, hc⟩ := Option.bind_eq_some_iff.mp h
    refine (ih hp).next ?_
    simpa using hc

theorem after?_digits (p : Place) {s : List Char} (h : ∀ c ∈ s, c.isDigit) :
    p.afterDigit.after? s = some p.afterDigit := by
  have hp : p.afterDigit.afterDigit = p.afterDigit := by cases p <;> rfl
  induction s with
  | nil => rfl
  | cons c s ih =>
    rw [List.forall_mem_cons] at h
    rw [after?_cons, next_of_isDigit _ h.1, hp]
    exact ih h.2

theorem after?_numeral (p : Place) {s : List Char} (h : IsNumeral s) :
    p.after? s = some p.afterDigit := by
  obtain ⟨c, s, rfl⟩ := List.exists_cons_of_ne_nil h.1
  have hs := List.forall_mem_cons.mp h.2
  rw [after?_cons, next_of_isDigit p hs.1]
  exact after?_digits p hs.2

end Place

/-- Where a reading stands behind an operand. -/
def Written.place (w : Written) : Place := if w.sides?.isSome then .sides else .first

theorem Written.takesOperator_place (w : Written) : w.place.takesOperator := by
  unfold Written.place
  split <;> rfl

/-- The text may end behind every operand. -/
theorem Written.isEnd_place (w : Written) : w.place.isEnd := by
  unfold Written.place
  split <;> rfl

/-- Where a reading from the start stands behind a row of operands. -/
def rowPlace (ws : List Written) : Place := (ws.getLast?.map Written.place).getD .start

@[simp] theorem rowPlace_nil : rowPlace [] = .start := rfl

@[simp] theorem rowPlace_concat (ws : List Written) (w : Written) :
    rowPlace (ws ++ [w]) = w.place := by simp [rowPlace]

theorem takesOperator_rowPlace (ws : List Written) : (rowPlace ws).takesOperator := by
  induction ws using List.reverseRecOn with
  | nil => rfl
  | append_singleton ws w => simpa using w.takesOperator_place

namespace Place

theorem after?_body {p : Place} {w : Written} (hw : w.IsWellFormed) (hp : p.afterDigit = .first) :
    p.after? w.body = some w.place := by
  rw [Written.body, after?_append, after?_numeral p hw.first, hp, Option.bind_some]
  cases hs : w.sides? with
  | none => simp [Written.place, hs]
  | some digits =>
    have hd : Place.first.next 'd' = some .die := by decide
    have hdigits := after?_numeral .die (hw.sides digits hs)
    simp [Written.place, hs, hd, hdigits, afterDigit]

/-- Reading an operand's text leads to its own place. -/
theorem after?_text {p : Place} {w : Written} (hw : w.IsWellFormed) (hp : p.takesOperator)
    (hsign : p = .start ∨ w.sign?.isSome) : p.after? w.text = some w.place := by
  rw [Written.text, after?_append]
  cases hs : w.sign? with
  | none =>
    have hstart : p = .start := by simpa [hs] using hsign
    subst hstart
    exact after?_body hw rfl
  | some sign =>
    have hnext : p.after? [sign.symbol] = some .operator := by simp [next_symbol sign hp]
    simp only [Option.map_some, Option.toList_some, hnext, Option.bind_some]
    exact after?_body hw rfl

/-- A row of operands is read through. -/
theorem after?_rowText {ws : List Written} (h : IsRow ws) :
    Place.start.after? (rowText ws) = some (rowPlace ws) := by
  induction ws using List.reverseRecOn with
  | nil => rfl
  | append_singleton ws w ih =>
    obtain ⟨hrow, hw, hsign⟩ := isRow_concat_iff.mp h
    have hplace : rowPlace ws = .start ∨ w.sign?.isSome := by
      rcases hsign with rfl | hsign
      · exact .inl rfl
      · exact .inr hsign
    rw [rowText_append, after?_append, ih hrow, Option.bind_some, rowPlace_concat]
    simpa [rowText] using after?_text hw (takesOperator_rowPlace ws) hplace

/-- A reading may end on exactly the texts that operands write. -/
theorem after?_any_isEnd_iff {s : List Char} :
    (Place.start.after? s).any isEnd ↔ ∃ ws, Writes ws s := by
  constructor
  · intro h
    obtain ⟨q, hq, hend⟩ := (Option.any_eq_true _ _).mp h
    cases reads_of_after? hq with
    | start => cases hend
    | operator sign row => cases hend
    | first row constant => exact ⟨_, by simp, row, rfl⟩
    | die row constant => cases hend
    | sides row dice => exact ⟨_, by simp, row, rfl⟩
  · rintro ⟨ws, hne, hrow, rfl⟩
    obtain rfl | ⟨ws, w, rfl⟩ := ws.eq_nil_or_concat'
    · contradiction
    rw [after?_rowText hrow, rowPlace_concat]
    exact w.isEnd_place

end Place
end FairDice
