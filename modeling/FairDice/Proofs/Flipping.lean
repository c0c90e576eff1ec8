import FairDice.Proofs.Parsing

/-!
# The opposite of an expression

Every operator is flipped, and a first operand without one gets a minus. The
opposite is written with the same operands under the other signs, and no rule
looks at a sign; so it means the same dice and constants with opposite signs, or
is rejected for the same reason and with the same numbers.
-/
namespace FairDice

def flipOperator (c : Char) : Char := ((Sign.ofOperator? c).map fun sign => sign.flip.symbol).getD c

/-- The text of the opposite of an expression that holds no blanks. -/
def oppositeText (s : List Char) : List Char :=
  (if s.head?.any isOperator then [] else [Sign.minus.symbol]) ++ s.map flipOperator

@[simp] theorem flipOperator_symbol (sign : Sign) : flipOperator sign.symbol = sign.flip.symbol := by
  simp [flipOperator]

theorem flipOperator_of_not_isOperator {c : Char} (h : isOperator c = false) :
    flipOperator c = c := by
  have hnone : Sign.ofOperator? c = none := by simpa [isOperator] using h
  simp [flipOperator, hnone]

theorem isBlank_flipOperator {c : Char} (h : isBlank c = false) :
    isBlank (flipOperator c) = false := by
  by_cases hc : isOperator c
  · obtain ⟨sign, rfl⟩ := exists_symbol_of_isOperator hc
    cases sign <;> decide
  · rwa [flipOperator_of_not_isOperator (Bool.eq_false_iff.mpr hc)]

/-- No blanks come in. -/
theorem stripBlanks_oppositeText (s : List Char) :
    stripBlanks (oppositeText (stripBlanks s)) = oppositeText (stripBlanks s) := by
  refine List.filter_eq_self.mpr fun c hc => ?_
  rw [oppositeText, List.mem_append] at hc
  rcases hc with hc | hc
  · have hminus : isBlank Sign.minus.symbol = false := by decide
    split at hc
    · cases hc
    · rw [List.mem_singleton.mp hc, hminus]
      rfl
  · obtain ⟨d, hd, rfl⟩ := List.mem_map.mp hc
    rw [isBlank_flipOperator (isBlank_of_mem_stripBlanks hd)]
    rfl

/-- Only the front of a text can be given a sign; behind it, operators are flipped. -/
theorem oppositeText_append {s : List Char} (hs : s ≠ []) (t : List Char) :
    oppositeText (s ++ t) = oppositeText s ++ t.map flipOperator := by
  rw [oppositeText, List.head?_append_of_ne_nil _ hs, List.map_append, ← List.append_assoc,
    oppositeText]

namespace Written

def opposite (w : Written) : Written := { w with sign? := some w.sign.flip }

@[simp] theorem dice_opposite (w : Written) : w.opposite.dice = w.dice := rfl

theorem text_opposite (w : Written) : w.opposite.text = w.sign.flip.symbol :: w.body := rfl

variable {w : Written}

theorem IsWellFormed.opposite (h : w.IsWellFormed) : w.opposite.IsWellFormed := ⟨h.first, h.sides⟩

theorem IsWellFormed.map_flipOperator_body (h : w.IsWellFormed) :
    w.body.map flipOperator = w.body :=
  (List.map_congr_left fun c hc => flipOperator_of_not_isOperator (h.isOperator_body c hc)).trans
    (List.map_id' _)

theorem IsWellFormed.map_flipOperator_text (h : w.IsWellFormed) (hsign : w.sign?.isSome) :
    w.text.map flipOperator = w.opposite.text := by
  obtain ⟨sign, hsign⟩ := Option.isSome_iff_exists.mp hsign
  rw [text_opposite, Written.sign, hsign]
  simp [text, hsign, h.map_flipOperator_body]

/-- The opposite text of an operand is the text of the opposite operand. -/
theorem IsWellFormed.oppositeText_text (h : w.IsWellFormed) :
    oppositeText w.text = w.opposite.text := by
  rw [oppositeText, h.isOperator_head?]
  cases hsign : w.sign? with
  | none =>
    rw [text_opposite, Written.sign, hsign]
    simp [text, hsign, h.map_flipOperator_body, Sign.flip]
  | some sign => simp [h.map_flipOperator_text, hsign]

end Written

section

variable {ws front : List Written} {w : Written} {s : List Char}

theorem rowText_map_opposite (hws : ∀ w ∈ ws, w.IsWellFormed)
    (hsigned : ∀ w ∈ ws, w.sign?.isSome) :
    rowText (ws.map Written.opposite) = (rowText ws).map flipOperator := by
  induction ws with
  | nil => rfl
  | cons w ws ih =>
    rw [List.forall_mem_cons] at hws hsigned
    rw [List.map_cons, rowText_cons, rowText_cons, ih hws.2 hsigned.2, List.map_append,
      hws.1.map_flipOperator_text hsigned.1]

/-- The opposite is written with the opposites of the operands. -/
theorem Writes.opposite (h : Writes ws s) :
    Writes (ws.map Written.opposite) (oppositeText s) := by
  obtain ⟨hne, hrow, rfl⟩ := h
  refine ⟨by simpa using hne, ⟨?_, ?_⟩, ?_⟩
  · rw [List.forall_mem_map]
    exact fun w hw => (hrow.wellFormed w hw).opposite
  · rw [← List.map_tail, List.forall_mem_map]
    exact fun _ _ => rfl
  · obtain ⟨w, ws, rfl⟩ := List.exists_cons_of_ne_nil hne
    have hws := List.forall_mem_cons.mp hrow.wellFormed
    rw [List.map_cons, rowText_cons, rowText_cons, oppositeText_append hws.1.text_ne_nil,
      hws.1.oppositeText_text, rowText_map_opposite hws.2 hrow.signed]

theorem diceOf_map_opposite (ws : List Written) : diceOf (ws.map Written.opposite) = diceOf ws := by
  rw [diceOf, List.map_map]
  rfl

variable {limits : Limits} {dice : Nat} {rule : Rule}

/-- No rule looks at the sign. -/
theorem Written.breaks_opposite_iff :
    w.opposite.Breaks limits dice rule ↔ w.Breaks limits dice rule := by
  cases rule <;> rfl

theorem keepsRules_map_opposite_iff :
    KeepsRules limits dice (ws.map Written.opposite) ↔ KeepsRules limits dice ws := by
  induction ws generalizing dice with
  | nil => rfl
  | cons w ws ih =>
    simp only [List.map_cons, keepsRules_cons, Written.breaks_opposite_iff, Written.dice_opposite,
      ih]

/-- The opposite row breaks the same rule first, at the opposite operand. -/
theorem FirstBreak.opposite (h : FirstBreak limits dice ws front w rule) :
    FirstBreak limits dice (ws.map Written.opposite) (front.map Written.opposite) w.opposite
      rule := by
  obtain ⟨⟨back, rfl⟩, hbefore, hbreaks, hfirst⟩ := h
  refine ⟨⟨back.map Written.opposite, by simp⟩, keepsRules_map_opposite_iff.mpr hbefore, ?_⟩
  rw [diceOf_map_opposite]
  refine ⟨Written.breaks_opposite_iff.mpr hbreaks, fun earlier hlt hearlier => ?_⟩
  exact hfirst earlier hlt (Written.breaks_opposite_iff.mp hearlier)

theorem Acceptable.opposite (h : Acceptable limits ws) :
    Acceptable limits (ws.map Written.opposite) := by
  obtain ⟨hlength, hkeeps⟩ := acceptable_iff.mp h
  refine acceptable_iff.mpr ⟨?_, keepsRules_map_opposite_iff.mpr hkeeps⟩
  rwa [List.length_map]

end

def oppositeRaw (raw : String) : String := String.ofList (oppositeText raw.toList)

def Term.opposite : Term → Term
  | .dice sign count sides raw => .dice sign.flip count sides (oppositeRaw raw)
  | .constant sign value raw => .constant sign.flip value (oppositeRaw raw)

def Terms.opposite (terms : Terms) : Terms := ⟨terms.toList.map Term.opposite⟩

theorem Written.IsWellFormed.oppositeRaw_token {w : Written} (h : w.IsWellFormed) :
    oppositeRaw w.token = w.opposite.token := by
  rw [oppositeRaw, token, String.toList_ofList, h.oppositeText_text, token]

/-- The opposite operand means the opposite term. -/
theorem Written.Means.opposite {w : Written} {term : Term} (hw : w.IsWellFormed)
    (h : w.Means term) : w.opposite.Means term.opposite := by
  cases term with
  | dice sign count sides raw =>
    obtain ⟨rfl, hcount, hsides, rfl⟩ := h
    exact ⟨rfl, hcount, hsides, hw.oppositeRaw_token⟩
  | constant sign value raw =>
    obtain ⟨rfl, hvalue, hnone, rfl⟩ := h
    exact ⟨rfl, hvalue, hnone, hw.oppositeRaw_token⟩

theorem forall₂_means_opposite {ws : List Written} {terms : List Term}
    (h : List.Forall₂ Written.Means ws terms) (hws : ∀ w ∈ ws, w.IsWellFormed) :
    List.Forall₂ Written.Means (ws.map Written.opposite) (terms.map Term.opposite) := by
  induction h with
  | nil => exact .nil
  | cons hmeans _ ih =>
    rw [List.forall_mem_cons] at hws
    exact .cons (hmeans.opposite hws.1) (ih hws.2)

namespace Rejection

/-- What a rejection for a limit has counted, and the limit. -/
def excess? : Rejection → Option (Nat × Nat)
  | .tooManyTerms count max => some (count, max)
  | .diceSidesExceedLimit _ sides max _ => some (sides, max)
  | .diceCountExceedsLimit _ total max _ => some (total, max)
  | .emptyExpression | .syntaxMismatch .. | .tokenReconstructionMismatch | .invalidNumber ..
  | .invalidDiceTerm .. => none

/-- The same reason with the same numbers, at an operand with the other sign if at any. -/
structure AgreesWith (rejection other : Rejection) : Prop where
  kind_eq : other.kind = rejection.kind
  excess_eq : other.excess? = rejection.excess?
  token_eq : other.token? = rejection.token?.map oppositeRaw

end Rejection

/-- A rule rejects opposite operands alike. -/
theorem Rule.agreesWith_opposite {w : Written} (hw : w.IsWellFormed) (limits : Limits)
    (dice start start' : Nat) (rule : Rule) :
    (rule.rejection limits dice start w).AgreesWith
      (rule.rejection limits dice start' w.opposite) := by
  cases rule <;> exact ⟨rfl, rfl, congrArg some hw.oppositeRaw_token.symm⟩

namespace Terms

variable {limits : Limits} {s : List Char} {terms : Terms} {rejection : Rejection}

/-- The opposite text is accepted where the text is, with the opposite terms. -/
theorem ofExpression_oppositeText (h : ofExpression limits s = .ok terms) :
    ofExpression limits (oppositeText s) = .ok terms.opposite := by
  obtain ⟨ws, hws, hacceptable, hmeans⟩ := ofExpression_eq_ok_iff.mp h
  exact ofExpression_eq_ok_iff.mpr ⟨_, hws.opposite, hacceptable.opposite,
    forall₂_means_opposite hmeans hws.row.wellFormed⟩

/-- What has the shape of an expression is rejected for the same reason as its opposite. -/
theorem exists_ofExpression_oppositeText (hs : s ∈ Grammar.expression)
    (h : ofExpression limits s = .error rejection) :
    ∃ other, ofExpression limits (oppositeText s) = .error other ∧ rejection.AgreesWith other := by
  simp only [ofExpression_eq_error_iff] at h ⊢
  cases h with
  | empty hempty =>
    obtain ⟨ws, hws⟩ := Grammar.mem_expression_iff.mp hs
    exact absurd hempty hws.text_ne_nil
  | misfit _ hno _ => exact absurd hs hno
  | tooMany hws hlength =>
    rw [← List.length_map Written.opposite] at hlength ⊢
    exact ⟨_, .tooMany hws.opposite hlength, rfl, rfl, rfl⟩
  | operand hws hlength hbreak =>
    obtain ⟨back, rfl⟩ := hbreak.split
    rw [← List.length_map Written.opposite] at hlength
    have hother := FirstViolation.operand hws.opposite hlength hbreak.opposite
    rw [diceOf_map_opposite] at hother
    have hw := hws.row.wellFormed _ (List.mem_append_right _ List.mem_cons_self)
    exact ⟨_, hother, Rule.agreesWith_opposite hw _ _ _ _ _⟩

end Terms

/-- The opposite of an expression, in which blanks may stand anywhere. -/
def oppositeOf (input : String) : String :=
  String.ofList (oppositeText (stripBlanks input.toList))

namespace Terms

variable {limits : Limits} {input : String}

theorem parse_oppositeOf_eq (limits : Limits) (input : String) :
    parse limits (oppositeOf input) =
      ofExpression limits (oppositeText (stripBlanks input.toList)) := by
  rw [parse, oppositeOf, String.toList_ofList, stripBlanks_oppositeText]

theorem parse_oppositeOf {terms : Terms} (h : parse limits input = .ok terms) :
    parse limits (oppositeOf input) = .ok terms.opposite := by
  rw [parse_oppositeOf_eq]
  exact ofExpression_oppositeText h

theorem exists_parse_oppositeOf {rejection : Rejection}
    (hinput : stripBlanks input.toList ∈ Grammar.expression)
    (h : parse limits input = .error rejection) :
    ∃ other, parse limits (oppositeOf input) = .error other ∧ rejection.AgreesWith other := by
  rw [parse_oppositeOf_eq]
  exact exists_ofExpression_oppositeText hinput h

/-- What has the shape of an expression is accepted exactly if its opposite is. -/
theorem exists_parse_oppositeOf_iff (hinput : stripBlanks input.toList ∈ Grammar.expression) :
    (∃ terms, parse limits (oppositeOf input) = .ok terms) ↔
      ∃ terms, parse limits input = .ok terms := by
  constructor
  · rintro ⟨terms, hopposite⟩
    cases h : parse limits input with
    | ok terms => exact ⟨terms, rfl⟩
    | error rejection =>
      obtain ⟨other, hother, -⟩ := exists_parse_oppositeOf hinput h
      cases hopposite.symm.trans hother
  · rintro ⟨terms, h⟩
    exact ⟨terms.opposite, parse_oppositeOf h⟩

end Terms
end FairDice
