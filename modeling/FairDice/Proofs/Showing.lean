import FairDice.Proofs.Parsing

/-!
# Terms and their text

The text of accepted terms is the expression without its blanks, and reading that
text gives the same terms again, so that accepted terms and expressions without
blanks belong together one to one. Blanks have no say in any answer, wherever
they stand.
-/
namespace FairDice

/-- The text `t` is the text `s` with blanks put in anywhere. -/
inductive Blanked : List Char → List Char → Prop
  | nil : Blanked [] []
  | keep (c : Char) {s t : List Char} : Blanked s t → Blanked (c :: s) (c :: t)
  | blank {c : Char} {s t : List Char} : isBlank c → Blanked s t → Blanked s (c :: t)

theorem Blanked.stripBlanks_eq {s t : List Char} (h : Blanked s t) :
    stripBlanks t = stripBlanks s := by
  induction h with
  | nil => rfl
  | keep c _ ih =>
    rw [stripBlanks] at ih ⊢
    rw [List.filter_cons, ih, stripBlanks, stripBlanks, List.filter_cons]
  | blank hc _ ih => rw [← ih, stripBlanks, List.filter_cons, hc, stripBlanks]; rfl

/-- A text is its stripped self with blanks put in. -/
theorem blanked_stripBlanks (s : List Char) : Blanked (stripBlanks s) s := by
  induction s with
  | nil => exact .nil
  | cons c s ih =>
    rw [stripBlanks, List.filter_cons]
    cases hc : isBlank c with
    | true => exact .blank hc ih
    | false => exact .keep c ih

/-- Texts are the same without their blanks if each of them is one text with blanks put in. -/
theorem stripBlanks_eq_iff {s t : List Char} :
    stripBlanks s = stripBlanks t ↔ ∃ u, Blanked u s ∧ Blanked u t := by
  constructor
  · intro h
    exact ⟨stripBlanks s, blanked_stripBlanks s, h ▸ blanked_stripBlanks t⟩
  · rintro ⟨u, hs, ht⟩
    rw [hs.stripBlanks_eq, ht.stripBlanks_eq]

variable {limits : Limits}

theorem Written.Means.raw_eq {w : Written} {term : Term} (h : w.Means term) :
    term.raw = w.token := by
  cases term with
  | dice sign count sides raw => exact h.2.2.2
  | constant sign value raw => exact h.2.2.2

/-- Terms in a row show the operands that they are written with. -/
theorem toList_join_raw {ws : List Written} {terms : List Term}
    (h : List.Forall₂ Written.Means ws terms) :
    (String.join (terms.map Term.raw)).toList = rowText ws := by
  rw [String.toList_join]
  induction h with
  | nil => rfl
  | cons hmeans _ ih =>
    rw [List.map_cons, List.flatMap_cons, ih, hmeans.raw_eq, Written.token, String.toList_ofList,
      rowText_cons]

namespace Terms

variable {input : String} {terms : Terms}

/-- The terms are displayed as the stripped text. -/
theorem toList_text_of_parse (h : parse limits input = .ok terms) :
    terms.text.toList = stripBlanks input.toList := by
  obtain ⟨ws, hws, -, hmeans⟩ := ofExpression_eq_ok_iff.mp h
  rw [text, toList_join_raw hmeans, hws.text]

/-- Displayed terms are parsed as themselves. -/
theorem parse_text (h : parse limits input = .ok terms) :
    parse limits terms.text = .ok terms := by
  rw [parse, toList_text_of_parse h, stripBlanks_stripBlanks]
  exact h

/-- An expression means the same terms under all limits that accept it. -/
theorem eq_of_ofExpression {limits' : Limits} {s : List Char} {terms' : Terms}
    (h : ofExpression limits s = .ok terms) (h' : ofExpression limits' s = .ok terms') :
    terms = terms' := by
  obtain ⟨ws, hws, -, hmeans⟩ := ofExpression_eq_ok_iff.mp h
  obtain ⟨ws', hws', -, hmeans'⟩ := ofExpression_eq_ok_iff.mp h'
  obtain rfl := hws.unique hws'
  exact congrArg Terms.mk (Written.means_rightUnique.forall₂ hmeans hmeans')

end Terms

/-- Parsing and showing are inverse to each other on what is accepted, and blanks make no
difference to what parsing answers. -/
theorem terms_correspond_to_texts :
    (∀ limits input terms, Terms.parse limits input = .ok terms →
      toString terms = String.ofList (stripBlanks input.toList) ∧
        Terms.parse limits (toString terms) = .ok terms) ∧
    (∀ limits limits' input input' terms terms', Terms.parse limits input = .ok terms →
      Terms.parse limits' input' = .ok terms' →
        (terms = terms' ↔ stripBlanks input.toList = stripBlanks input'.toList)) ∧
    ∀ input input' : String,
      (stripBlanks input.toList = stripBlanks input'.toList ↔
        ∃ s, Blanked s input.toList ∧ Blanked s input'.toList) ∧
      (stripBlanks input.toList = stripBlanks input'.toList →
        ∀ limits, Terms.parse limits input = Terms.parse limits input') := by
  refine ⟨?_, ?_, ?_⟩
  · intro limits input terms h
    refine ⟨?_, Terms.parse_text h⟩
    rw [← Terms.toList_text_of_parse h, String.ofList_toList]
    rfl
  · intro limits limits' input input' terms terms' h h'
    constructor
    · rintro rfl
      rw [← Terms.toList_text_of_parse h, ← Terms.toList_text_of_parse h']
    · intro hstrip
      rw [Terms.parse, ← hstrip] at h'
      exact Terms.eq_of_ofExpression h h'
  · intro input input'
    refine ⟨stripBlanks_eq_iff, fun hstrip limits => ?_⟩
    rw [Terms.parse, hstrip, Terms.parse]

/-- Blanks inside a number and around the `d`, zeros in front and a sign of nothing: all but the
blanks is shown again. -/
theorem terms_correspond_to_texts_blanks_in_numbers :
    let terms : Terms := ⟨[.dice .plus 12 6 "+012d06", .constant .minus 0 "-0"]⟩
    Terms.parse .default "+0 1\t2 d 06\u2003- 0" = .ok terms ∧
      toString terms = "+012d06-0" ∧ Terms.parse .default "+012d06-0" = .ok terms := by
  intro terms
  have hparse : Terms.parse .default "+0 1\t2 d 06\u2003- 0" = .ok terms := by decide
  have htext : toString terms = "+012d06-0" := by decide
  obtain ⟨-, hagain⟩ := terms_correspond_to_texts.1 _ _ _ hparse
  rw [htext] at hagain
  exact ⟨hparse, htext, hagain⟩

end FairDice
