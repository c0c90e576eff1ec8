import FairDice.Proofs.Blanks
import FairDice.Proofs.Checking
import FairDice.Proofs.Descent
import FairDice.Proofs.Tiling

/-!
# What becomes of an expression

An expression is accepted exactly when it can be written as acceptable operands,
and then it means the terms that these stand for; otherwise the answer is the
first thing wrong with it. Only what it leaves without its white space counts.
-/
namespace FairDice

variable {limits : Limits} {s : List Char}

/-- What is wrong with a text that holds no blanks, and comes before anything else that is wrong. -/
inductive FirstViolation (limits : Limits) (s : List Char) : Rejection → Prop
  | empty : s = [] → FirstViolation limits s .emptyExpression
  | misfit {misfit : Misfit} :
    s ≠ [] → s ∉ Grammar.expression → Place.start.misfit? 0 s = some misfit →
      FirstViolation limits s (.syntaxMismatch misfit.reason misfit.span)
  | tooMany {ws : List Written} :
    Writes ws s → limits.maxTerms < ws.length →
      FirstViolation limits s (.tooManyTerms ws.length limits.maxTerms)
  | operand {ws front : List Written} {w : Written} {rule : Rule} :
    Writes ws s → ws.length ≤ limits.maxTerms → FirstBreak limits 0 ws front w rule →
      FirstViolation limits s
        (rule.rejection limits (diceOf front) (byteLength (rowText front)) w)

theorem Writes.text_ne_nil {ws : List Written} (h : Writes ws s) : s ≠ [] := by
  obtain ⟨hne, hrow, rfl⟩ := h
  obtain ⟨w, ws, rfl⟩ := List.exists_cons_of_ne_nil hne
  simp [(hrow.wellFormed w (by simp)).text_ne_nil]

namespace Terms

theorem ofExpression_of_misfit {misfit : Misfit} (hne : s ≠ [])
    (h : Place.start.misfit? 0 s = some misfit) :
    ofExpression limits s = .error (.syntaxMismatch misfit.reason misfit.span) := by
  rw [ofExpression, operands_eq_error_iff.mpr h]
  simp only [List.isEmpty_iff, hne, if_false]
  rfl

/-- The operands that a text is cut into are the text again, so only they matter from there on. -/
theorem ofExpression_of_writes {ws : List Written} (h : Writes ws s) :
    ofExpression limits s =
      if limits.maxTerms < ws.length then .error (.tooManyTerms ws.length limits.maxTerms)
      else (Operand.terms limits 0 (placed 0 ws)).map Terms.mk := by
  have htext : ((placed 0 ws).map Operand.text).flatten = s := by
    rw [map_text_placed]
    exact h.text
  rw [ofExpression, h.operands_eq]
  simp only [List.isEmpty_iff, h.text_ne_nil, htext, ne_eq, not_true_eq_false, if_false,
    length_placed]
  split
  · rfl
  · cases Operand.terms limits 0 (placed 0 ws) <;> rfl

/-- Every text is empty, has a misfit or is written with operands. -/
theorem empty_or_misfit_or_writes (s : List Char) :
    s = [] ∨ (s ≠ [] ∧ ∃ misfit, Place.start.misfit? 0 s = some misfit) ∨ ∃ ws, Writes ws s := by
  by_cases hs : s ∈ Grammar.expression
  · exact .inr (.inr (Grammar.mem_expression_iff.mp hs))
  · by_cases hne : s = []
    · exact .inl hne
    · exact .inr (.inl ⟨hne, exists_misfit_iff.mpr hs⟩)

/-- A text is accepted as the terms of a row that the limits allow. -/
theorem ofExpression_eq_ok_iff {terms : Terms} :
    ofExpression limits s = .ok terms ↔
      ∃ ws, Writes ws s ∧ Acceptable limits ws ∧ List.Forall₂ Written.Means ws terms.toList := by
  constructor
  · intro h
    obtain rfl | ⟨hne, misfit, hmisfit⟩ | ⟨ws, hws⟩ := empty_or_misfit_or_writes s
    · cases h
    · cases (ofExpression_of_misfit hne hmisfit).symm.trans h
    · rw [ofExpression_of_writes hws] at h
      split at h
      · cases h
      · next hlength =>
        cases hterms : Operand.terms limits 0 (placed 0 ws) with
        | error rejection => rw [hterms] at h; cases h
        | ok list =>
          rw [hterms] at h
          cases h
          obtain ⟨hkeeps, hall⟩ := terms_placed_eq_ok_iff.mp hterms
          exact ⟨ws, hws, acceptable_iff.mpr ⟨Nat.not_lt.mp hlength, hkeeps⟩, hall⟩
  · rintro ⟨ws, hws, hacceptable, hall⟩
    obtain ⟨hlength, hkeeps⟩ := acceptable_iff.mp hacceptable
    rw [ofExpression_of_writes hws, if_neg (Nat.not_lt.mpr hlength),
      terms_placed_eq_ok_iff.mpr ⟨hkeeps, hall⟩]
    rfl

/-- A text is rejected for its first violation. -/
theorem ofExpression_eq_error_iff {rejection : Rejection} :
    ofExpression limits s = .error rejection ↔ FirstViolation limits s rejection := by
  constructor
  · intro h
    obtain rfl | ⟨hne, misfit, hmisfit⟩ | ⟨ws, hws⟩ := empty_or_misfit_or_writes s
    · cases h
      exact .empty rfl
    · cases (ofExpression_of_misfit hne hmisfit).symm.trans h
      exact .misfit hne (exists_misfit_iff.mp ⟨misfit, hmisfit⟩) hmisfit
    · rw [ofExpression_of_writes hws] at h
      split at h
      · next hlength =>
        cases h
        exact .tooMany hws hlength
      · next hlength =>
        cases hterms : Operand.terms limits 0 (placed 0 ws) with
        | ok list => rw [hterms] at h; cases h
        | error first =>
          rw [hterms] at h
          cases h
          obtain ⟨front, w, rule, hbreak, rfl⟩ := terms_placed_eq_error_iff.mp hterms
          exact .operand hws (Nat.not_lt.mp hlength) hbreak
  · intro h
    cases h with
    | empty hs =>
      subst hs
      rfl
    | misfit hne _ hmisfit => exact ofExpression_of_misfit hne hmisfit
    | tooMany hws hlength => rw [ofExpression_of_writes hws, if_pos hlength]
    | operand hws hlength hbreak =>
      rw [ofExpression_of_writes hws, if_neg (Nat.not_lt.mpr hlength),
        terms_placed_eq_error_iff.mpr ⟨_, _, _, hbreak, rfl⟩]
      rfl

end Terms

/-- The operand that a rejection names stands where its span says. -/
theorem FirstViolation.holds {rejection : Rejection} {token : String}
    (h : FirstViolation limits s rejection) (htoken : rejection.token? = some token) :
    ∃ span, rejection.span? = some span ∧ span.Holds s token.toList := by
  cases h with
  | empty _ => cases htoken
  | misfit _ _ _ => cases htoken
  | tooMany _ _ => cases htoken
  | @operand ws front w rule hws _ hbreak =>
    obtain ⟨back, rfl⟩ := hbreak.split
    have hspan : (rule.rejection limits (diceOf front) (byteLength (rowText front)) w).span? =
        some ⟨byteLength (rowText front), byteLength (rowText front) + byteLength w.text⟩ := by
      cases rule <;> rfl
    have hname : (rule.rejection limits (diceOf front) (byteLength (rowText front)) w).token? =
        some w.token := by
      cases rule <;> rfl
    obtain rfl := Option.some.inj (hname.symm.trans htoken)
    refine ⟨_, hspan, rowText front, rowText back, ?_, rfl, ?_⟩
    · rw [← hws.text, Written.token, String.toList_ofList]
      simp
    · rw [Written.token, String.toList_ofList, byteLength_append]

/-- No violation is a failure to rebuild the text from its tokens. -/
theorem FirstViolation.ne_tokenReconstructionMismatch {rejection : Rejection}
    (h : FirstViolation limits s rejection) : rejection ≠ .tokenReconstructionMismatch := by
  cases h with
  | empty _ => simp
  | misfit _ _ _ => simp
  | tooMany _ _ => simp
  | @operand _ _ _ rule _ _ _ => cases rule <;> simp [Rule.rejection]

/-- A text is cut into operands exactly when it is an expression, and then in the one way in which
it can be taken apart, whether it is cut or read by descent. Nothing gets lost on the way. -/
theorem operands_decompose (s : List Char) :
    ((∃ ops, operands s = .ok ops) ↔ s ∈ Grammar.expression) ∧
    (∀ ops, operands s = .ok ops ↔ IsDecomposition s ops) ∧
    (∀ ops, operands s = .ok ops →
      (ops.map Operand.text).flatten = s ∧
        ops.length = s.countP isOperator + if s.head?.any isOperator then 0 else 1) ∧
    readTokens? s = (operands s).toOption.map (·.map Operand.asToken) ∧
    ∀ limits input, Terms.parse limits input ≠ .error .tokenReconstructionMismatch := by
  refine ⟨?_, ?_, ?_, readTokens?_eq s, ?_⟩
  · rw [Grammar.mem_expression_iff]
    constructor
    · rintro ⟨ops, hops⟩
      obtain ⟨ws, hws, -⟩ := operands_eq_ok_iff.mp hops
      exact ⟨ws, hws⟩
    · rintro ⟨ws, hws⟩
      exact ⟨placed 0 ws, hws.operands_eq⟩
  · intro ops
    rw [operands_eq_ok_iff, isDecomposition_iff]
  · intro ops hops
    obtain ⟨ws, hws, rfl⟩ := operands_eq_ok_iff.mp hops
    rw [map_text_placed, length_placed]
    exact ⟨hws.text, hws.length_eq⟩
  · intro limits input h
    exact (Terms.ofExpression_eq_error_iff.mp h).ne_tokenReconstructionMismatch rfl

/-- An expression is accepted exactly when what it leaves without its white space is written as
acceptable operands, and means the terms that they stand for. -/
theorem parse_eq_ok_iff (limits : Limits) (input : String) :
    (∀ s, StripsTo input.toList s ↔ s = stripBlanks input.toList) ∧
    ((∃ terms, Terms.parse limits input = .ok terms) ↔
      stripBlanks input.toList ≠ [] ∧ stripBlanks input.toList ∈ Grammar.expression ∧
        ∃ ws, Writes ws (stripBlanks input.toList) ∧ Acceptable limits ws) ∧
    ∀ terms, Terms.parse limits input = .ok terms ↔
      ∃ ws, Writes ws (stripBlanks input.toList) ∧ Acceptable limits ws ∧
        List.Forall₂ Written.Means ws terms.toList := by
  refine ⟨fun _ => stripsTo_iff, ?_, fun _ => Terms.ofExpression_eq_ok_iff⟩
  constructor
  · rintro ⟨terms, h⟩
    obtain ⟨ws, hws, hacceptable, -⟩ := Terms.ofExpression_eq_ok_iff.mp h
    exact ⟨hws.text_ne_nil, Grammar.mem_expression_iff.mpr ⟨ws, hws⟩, ws, hws, hacceptable⟩
  · rintro ⟨-, -, ws, hws, hacceptable⟩
    obtain ⟨hlength, hkeeps⟩ := acceptable_iff.mp hacceptable
    have hzero : (0 : UInt64).toNat ≤ limits.maxDice := Nat.zero_le _
    obtain ⟨terms, -, hall⟩ := exists_terms_placed 0 hzero hkeeps
    exact ⟨⟨terms⟩, Terms.ofExpression_eq_ok_iff.mpr ⟨ws, hws, hacceptable, hall⟩⟩

/-- White space of several kinds, also inside the numbers. -/
theorem parse_eq_ok_iff_white_space :
    let input := " 1\u20032\u3000d2\u00a00 +\t3\n"
    StripsTo input.toList "12d20+3".toList ∧
      Terms.parse .default input =
        .ok ⟨[.dice .plus 12 20 "12d20", .constant .plus 3 "+3"]⟩ := by
  intro input
  obtain ⟨hstrips, -, hmeans⟩ := parse_eq_ok_iff .default input
  have hdice : (⟨none, ['1', '2'], some ['2', '0']⟩ : Written).IsWellFormed :=
    ⟨by simp [IsNumeral], by simp [IsNumeral]⟩
  have hconstant : (⟨some .plus, ['3'], none⟩ : Written).IsWellFormed :=
    ⟨by simp [IsNumeral], by simp⟩
  have hfits : ∀ w ∈ [⟨none, ['1', '2'], some ['2', '0']⟩, (⟨some .plus, ['3'], none⟩ : Written)],
      w.Fits .default := by
    rw [List.forall_mem_cons, List.forall_mem_singleton]
    refine ⟨⟨?_, ?_, ?_, ?_⟩, ⟨?_, ?_, ?_, ?_⟩⟩ <;> decide
  refine ⟨(hstrips _).mpr (by decide), (hmeans _).mpr ⟨_, ⟨by simp, ⟨?_, ?_⟩, by decide⟩,
    ⟨by decide, hfits, by decide⟩, .cons ?_ (.cons ?_ .nil)⟩⟩
  · simp [hdice, hconstant]
  · simp
  · exact ⟨rfl, rfl, ⟨_, rfl, rfl⟩, rfl⟩
  · exact ⟨rfl, rfl, rfl, rfl⟩

/-- The answer to an expression that is not accepted is the first thing wrong with what it leaves
without its white space, and an operand that it names stands at its span. -/
theorem parse_eq_error_iff (limits : Limits) (input : String) :
    (∀ s, StripsTo input.toList s ↔ s = stripBlanks input.toList) ∧
    (∀ rejection, Terms.parse limits input = .error rejection ↔
      FirstViolation limits (stripBlanks input.toList) rejection) ∧
    ∀ rejection token, Terms.parse limits input = .error rejection →
      rejection.token? = some token → ∃ span, rejection.span? = some span ∧
        span.Holds (stripBlanks input.toList) token.toList := by
  refine ⟨fun _ => stripsTo_iff, fun _ => Terms.ofExpression_eq_error_iff, ?_⟩
  intro rejection token h htoken
  exact (Terms.ofExpression_eq_error_iff.mp h).holds htoken

end FairDice
