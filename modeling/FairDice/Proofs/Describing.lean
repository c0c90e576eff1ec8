import FairDice.Proofs.Exactness
import FairDice.Proofs.Spelling
import FairDice.RollSet.Describe

/-!
# Descriptions of rolls

The signs in a description are those of the expression, although they are told
from the texts of the terms alone, and so are the terms with faces behind them;
outside of the brackets a description is the expression once more, and it is read
with the same outcome.
-/
namespace FairDice

def dropSpaces (s : List Char) : List Char := s.filter (· != ' ')

/-- The text outside of its brackets. -/
def dropBracketed (inside : Bool) : List Char → List Char
  | [] => []
  | c :: s =>
    if inside then dropBracketed (c != ']') s
    else if c = '[' then dropBracketed true s
    else c :: dropBracketed false s

/-- The text without what stands between brackets and without spaces. -/
def bareText (s : List Char) : List Char := dropSpaces (dropBracketed false s)

def dropPlus : List Char → List Char
  | '+' :: s => s
  | s => s

section

variable {s : List Char}

@[simp] theorem dropSpaces_append (s t : List Char) :
    dropSpaces (s ++ t) = dropSpaces s ++ dropSpaces t := List.filter_append ..

theorem dropSpaces_eq_self (h : ' ' ∉ s) : dropSpaces s = s := by
  rw [dropSpaces, List.filter_eq_self]
  exact fun c hc => bne_iff_ne.mpr (ne_of_mem_of_not_mem hc h)

/-- Spaces and brackets are deleted in either order. -/
theorem dropSpaces_dropBracketed (inside : Bool) (s : List Char) :
    dropSpaces (dropBracketed inside s) = dropBracketed inside (dropSpaces s) := by
  induction s generalizing inside with
  | nil => rfl
  | cons c s ih =>
    by_cases hspace : c = ' '
    · subst hspace
      cases inside <;> simpa [dropSpaces, dropBracketed] using ih _
    · have hkeep : dropSpaces (c :: s) = c :: dropSpaces s := by simp [dropSpaces, hspace]
      rw [hkeep, dropBracketed, dropBracketed]
      split
      · exact ih _
      split
      · exact ih _
      · simpa [dropSpaces, hspace] using ih false

/-- It is the same to drop the spaces first. -/
theorem bareText_eq (s : List Char) : bareText s = dropBracketed false (dropSpaces s) :=
  dropSpaces_dropBracketed false s

theorem dropBracketed_append (h : '[' ∉ s) (rest : List Char) :
    dropBracketed false (s ++ rest) = s ++ dropBracketed false rest := by
  induction s with
  | nil => rfl
  | cons c s ih =>
    rw [List.mem_cons, not_or] at h
    rw [List.cons_append, dropBracketed, if_neg Bool.false_ne_true, if_neg (Ne.symm h.1), ih h.2,
      List.cons_append]

/-- Inside a bracket everything goes, up to the closing one. -/
theorem dropBracketed_true_append (h : ']' ∉ s) (rest : List Char) :
    dropBracketed true (s ++ ']' :: rest) = dropBracketed false rest := by
  induction s with
  | nil => rfl
  | cons c s ih =>
    rw [List.mem_cons, not_or] at h
    rw [List.cons_append, dropBracketed, if_pos rfl, show (c != ']') = true by simp [Ne.symm h.1]]
    exact ih h.2

theorem dropPlus_cons {c : Char} (h : c ≠ '+') (s : List Char) : dropPlus (c :: s) = c :: s := by
  rw [dropPlus]
  exact fun _ heq => h (List.cons.inj heq).1

theorem dropPlus_append (h : s ≠ []) (t : List Char) : dropPlus (s ++ t) = dropPlus s ++ t := by
  obtain ⟨c, s, rfl⟩ := List.exists_cons_of_ne_nil h
  by_cases hc : c = '+'
  · subst hc
    rfl
  · rw [List.cons_append, dropPlus_cons hc, dropPlus_cons hc, List.cons_append]

theorem mem_of_mem_dropPlus {c : Char} (h : c ∈ dropPlus s) : c ∈ s := by
  rw [dropPlus.eq_def] at h
  split at h
  · exact List.mem_cons_of_mem _ h
  · exact h

end

theorem mem_or_exists_of_mem_intercalate {α : Type} {a : α} {separator : List α}
    {parts : List (List α)} (h : a ∈ separator.intercalate parts) :
    a ∈ separator ∨ ∃ part ∈ parts, a ∈ part := by
  induction parts with
  | nil => cases h
  | cons part parts ih =>
    cases parts with
    | nil =>
      rw [List.intercalate_singleton] at h
      exact .inr ⟨part, List.mem_singleton_self _, h⟩
    | cons next parts =>
      rw [List.intercalate_cons_cons, List.mem_append, List.mem_append] at h
      obtain (h | h) | h := h
      · exact .inr ⟨part, List.mem_cons_self, h⟩
      · exact .inl h
      · obtain h | ⟨part', hpart', h⟩ := ih h
        · exact .inl h
        · exact .inr ⟨part', List.mem_cons_of_mem _ hpart', h⟩

namespace TermRoll

def listing (limit : Option Nat) (roll : TermRoll) : List Char :=
  [',', ' '].intercalate ((roll.shown limit).map fun face => Nat.toDigits 10 face.toNat) ++
    if roll.hidden limit = 0 then []
    else [',', ' '] ++ Nat.toDigits 10 (roll.hidden limit) ++ " more...".toList

def brackets (limit : Option Nat) (roll : TermRoll) : List Char :=
  if roll.isConstant then [] else '[' :: (roll.listing limit ++ [']'])

theorem toList_faceList (limit : Option Nat) (roll : TermRoll) :
    (roll.faceList limit).toList = '[' :: (roll.listing limit ++ [']']) := by
  simp only [faceList, listing, String.toList_append, String.toList_intercalate, List.map_map,
    Function.comp_def, toList_toString_nat]
  split <;> simp

/-- A rolled term is described by its text without the sign, and its faces in brackets behind. -/
theorem toList_describe (limit : Option Nat) (roll : TermRoll) :
    (roll.describe limit).toList =
      roll.term.toList.dropWhile isOperator ++ roll.brackets limit := by
  rw [describe, brackets]
  split
  · simp [dropOperators]
  · rw [String.toList_append, toList_faceList, dropOperators, String.toList_ofList]

/-- A character that may stand between the brackets. -/
def isListed (c : Char) : Bool := c.isDigit || [',', ' ', 'm', 'o', 'r', 'e', '.'].contains c

theorem isListed_of_mem_toDigits {n : Nat} {c : Char} (h : c ∈ Nat.toDigits 10 n) : isListed c := by
  rw [isListed, isDigit_of_mem_toDigits h, Bool.true_or]

theorem isListed_of_mem_listing {limit : Option Nat} {roll : TermRoll} {c : Char}
    (h : c ∈ roll.listing limit) : isListed c := by
  have hcomma : ∀ c ∈ [',', ' '], isListed c := List.all_eq_true.mp (by decide)
  have hmore : ∀ c ∈ " more...".toList, isListed c := List.all_eq_true.mp (by decide)
  rw [listing, List.mem_append] at h
  rcases h with h | h
  · obtain h | ⟨digits, hdigits, h⟩ := mem_or_exists_of_mem_intercalate h
    · exact hcomma c h
    · obtain ⟨face, -, rfl⟩ := List.mem_map.mp hdigits
      exact isListed_of_mem_toDigits h
  · split at h
    · cases h
    · rw [List.mem_append, List.mem_append] at h
      obtain (h | h) | h := h
      · exact hcomma c h
      · exact isListed_of_mem_toDigits h
      · exact hmore c h

theorem brackets_of_isConstant {roll : TermRoll} (h : roll.isConstant) (limit : Option Nat) :
    roll.brackets limit = [] := if_pos h

theorem dropSpaces_brackets {roll : TermRoll} (h : ¬roll.isConstant) (limit : Option Nat) :
    dropSpaces (roll.brackets limit) = '[' :: (dropSpaces (roll.listing limit) ++ [']']) := by
  rw [brackets, if_neg h]
  simp [dropSpaces]

/-- No listing closes the bracket it stands in. -/
theorem not_mem_dropSpaces_listing (limit : Option Nat) (roll : TermRoll) :
    ']' ∉ dropSpaces (roll.listing limit) := fun h =>
  absurd (isListed_of_mem_listing (List.mem_of_mem_filter h)) (by decide)

/-- The brackets go without a trace. -/
theorem dropBracketed_brackets (limit : Option Nat) (roll : TermRoll) (rest : List Char) :
    dropBracketed false (dropSpaces (roll.brackets limit) ++ rest) = dropBracketed false rest := by
  by_cases h : roll.isConstant
  · rw [brackets_of_isConstant h]
    rfl
  · rw [dropSpaces_brackets h, List.cons_append, List.append_assoc]
    exact dropBracketed_true_append (roll.not_mem_dropSpaces_listing limit) rest

end TermRoll

namespace Written

variable {w : Written} {term : Term} {roll : TermRoll} {limits : Limits}

/-- What is rolled for an operand shows how it is written and is worth what it shows. -/
structure Shows (w : Written) (roll : TermRoll) : Prop where
  wellFormed : w.IsWellFormed
  term_eq : roll.term = w.token
  isConstant_eq : roll.isConstant = w.sides?.isNone
  total_eq : roll.total.toInt = w.sign.factor *
    if w.sides?.isSome then faceTotal roll.rolls else decimalValue w.first

/-- An exact roll of the term that an operand means shows the operand. -/
theorem Means.shows (hw : w.IsWellFormed) (hmeans : w.Means term) (hfits : w.Fits limits)
    (hexact : roll.IsExact term) : w.Shows roll := by
  cases term with
  | dice sign count sides raw =>
    obtain ⟨rfl, hcount, ⟨digits, hdigits, -⟩, rfl⟩ := hmeans
    obtain ⟨hroll, hlength, -, htotal⟩ := hexact
    have hsome : w.sides?.isSome := Option.isSome_of_mem hdigits
    have hne : roll.rolls ≠ [] := by
      intro hnil
      have hpos := hfits.count_pos hsome
      rw [hnil, List.length_nil] at hlength
      omega
    refine ⟨hw, by rw [hroll]; rfl, ?_, ?_⟩
    · rw [TermRoll.isConstant, hdigits]
      simpa using hne
    · rw [if_pos hsome, htotal.toInt_eq]
  | constant sign value raw =>
    obtain ⟨rfl, hvalue, hnone, rfl⟩ := hmeans
    obtain ⟨hroll, -, htotal⟩ := hexact
    refine ⟨hw, by rw [hroll]; rfl, ?_, ?_⟩
    · rw [hroll, hnone]
      rfl
    · rw [hnone, htotal.toInt_eq, hvalue]
      rfl

theorem IsWellFormed.dropWhile_text_append (h : w.IsWellFormed) (rest : List Char) :
    (w.text ++ rest).dropWhile isOperator = w.body ++ rest := by
  have hbody : (w.body ++ rest).dropWhile isOperator = w.body ++ rest := by
    obtain ⟨c, s, hc⟩ := List.exists_cons_of_ne_nil h.body_ne_nil
    have hfalse : isOperator c = false := h.isOperator_body c (by simp [hc])
    rw [hc, List.cons_append, List.dropWhile_cons, hfalse, if_neg Bool.false_ne_true]
  cases hs : w.sign? <;> simp [text, hs, hbody]

theorem IsWellFormed.dropWhile_text (h : w.IsWellFormed) :
    w.text.dropWhile isOperator = w.body := by
  simpa using h.dropWhile_text_append []

theorem IsWellFormed.head?_text_iff (h : w.IsWellFormed) :
    w.text.head? = some '-' ↔ w.sign? = some .minus := by
  constructor
  · intro hhead
    rw [← h.ofOperator?_head?, hhead]
    rfl
  · intro hsign
    simp [text, hsign, Sign.symbol]

def withoutPlus (w : Written) : Written :=
  { w with sign? := if w.sign? = some .minus then some .minus else none }

theorem IsWellFormed.withoutPlus (h : w.IsWellFormed) : w.withoutPlus.IsWellFormed :=
  ⟨h.first, h.sides⟩

theorem sign_withoutPlus (w : Written) : w.withoutPlus.sign = w.sign := by
  cases hs : w.sign? with
  | none => simp [sign, withoutPlus, hs]
  | some sign => cases sign <;> simp [Written.sign, withoutPlus, hs]

theorem text_withoutPlus (w : Written) :
    w.withoutPlus.text = (if w.sign? = some .minus then ['-'] else []) ++ w.body := by
  rw [text, withoutPlus]
  split <;> rfl

theorem IsWellFormed.not_mem_body (h : w.IsWellFormed) {c : Char} (hdigit : c.isDigit = false)
    (hd : c ≠ 'd') : c ∉ w.body := by
  intro hmem
  rcases h.isDigit_or_eq_of_mem_body hmem with htrue | heq
  · rw [hdigit] at htrue
    cases htrue
  · exact hd heq

theorem IsWellFormed.not_mem_text (h : w.IsWellFormed) {c : Char} (hoperator : isOperator c = false)
    (hdigit : c.isDigit = false) (hd : c ≠ 'd') : c ∉ w.text := by
  rw [text, List.mem_append, not_or]
  refine ⟨?_, h.not_mem_body hdigit hd⟩
  cases w.sign? with
  | none => exact List.not_mem_nil
  | some sign =>
    intro hmem
    obtain rfl := List.mem_singleton.mp hmem
    rw [isOperator_symbol] at hoperator
    cases hoperator

theorem IsWellFormed.dropSpaces_text (h : w.IsWellFormed) : dropSpaces w.text = w.text :=
  dropSpaces_eq_self (h.not_mem_text (by decide) (by decide) (by decide))

theorem IsWellFormed.dropPlus_text (h : w.IsWellFormed) : dropPlus w.text = w.withoutPlus.text := by
  rw [text_withoutPlus]
  cases hs : w.sign? with
  | some sign => cases sign <;> simp [text, hs, Sign.symbol, dropPlus]
  | none =>
    obtain ⟨c, s, hc⟩ := List.exists_cons_of_ne_nil h.body_ne_nil
    have hplus : c ≠ '+' := by
      rintro rfl
      exact h.not_mem_body (by decide) (by decide) (hc ▸ List.mem_cons_self)
    rw [text, hs, hc]
    exact dropPlus_cons hplus s

/-- The operand with what is listed behind it, without spaces. -/
def piece (limit : Option Nat) (w : Written) (roll : TermRoll) : List Char :=
  w.text ++ dropSpaces (roll.brackets limit)

/-- A described operand is its own text once the faces are deleted. -/
theorem IsWellFormed.dropBracketed_piece (h : w.IsWellFormed) (limit : Option Nat)
    (roll : TermRoll) (rest : List Char) :
    dropBracketed false (w.piece limit roll ++ rest) = w.text ++ dropBracketed false rest := by
  have hbracket : '[' ∉ w.text := h.not_mem_text (by decide) (by decide) (by decide)
  rw [piece, List.append_assoc, dropBracketed_append hbracket, roll.dropBracketed_brackets]

namespace Shows

theorem toList_term (h : w.Shows roll) : roll.term.toList = w.text := by
  rw [h.term_eq, token, String.toList_ofList]

theorem isNegative_iff (h : w.Shows roll) : roll.isNegative ↔ w.sign? = some .minus := by
  rw [TermRoll.isNegative, h.toList_term, decide_eq_true_iff, h.wellFormed.head?_text_iff]

theorem toList_describe (h : w.Shows roll) (limit : Option Nat) :
    (roll.describe limit).toList = w.body ++ roll.brackets limit := by
  rw [roll.toList_describe, h.toList_term, h.wellFormed.dropWhile_text]

/-- A first term is told with its minus, if it has one. -/
theorem dropSpaces_describe_first (h : w.Shows roll) (limit : Option Nat) :
    dropSpaces ((if roll.isNegative then "-" else "").toList ++ (roll.describe limit).toList) =
      w.withoutPlus.piece limit roll := by
  have htext : (if roll.isNegative then "-" else "").toList ++ w.body = w.withoutPlus.text := by
    rw [text_withoutPlus]
    simp only [h.isNegative_iff]
    split <;> rfl
  rw [h.toList_describe, ← List.append_assoc, htext, dropSpaces_append,
    h.wellFormed.withoutPlus.dropSpaces_text, piece]

/-- Behind other terms a term is told with its operator. -/
theorem dropSpaces_describeNext (h : w.Shows roll) (hsign : w.sign?.isSome) (limit : Option Nat) :
    dropSpaces (RollSet.describeNext limit roll).toList = w.piece limit roll := by
  obtain ⟨sign, hs⟩ := Option.isSome_iff_exists.mp hsign
  have hspaces : dropSpaces (if roll.isNegative then " - " else " + ").toList = [sign.symbol] := by
    simp only [h.isNegative_iff, hs]
    cases sign <;> rfl
  have hbody : dropSpaces w.body = w.body :=
    dropSpaces_eq_self (h.wellFormed.not_mem_body (by decide) (by decide))
  rw [RollSet.describeNext, String.toList_append, dropSpaces_append, hspaces, h.toList_describe,
    dropSpaces_append, hbody, piece, text, hs, ← List.append_assoc]
  rfl

end Shows

end Written

def withoutPlus : List Written → List Written
  | [] => []
  | w :: ws => w.withoutPlus :: ws

/-- The operands of a row with what is listed behind them, one after the other. -/
def piecesOf (limit : Option Nat) (ws : List Written) (rolls : List TermRoll) : List (List Char) :=
  List.zipWith (Written.piece limit) ws rolls

/-- A described row is its own text once the faces are deleted. -/
theorem dropBracketed_piecesOf {ws : List Written} {rolls : List TermRoll}
    (hforms : ∀ w ∈ ws, w.IsWellFormed) (hlength : ws.length = rolls.length)
    (limit : Option Nat) : dropBracketed false (piecesOf limit ws rolls).flatten = rowText ws := by
  induction ws generalizing rolls with
  | nil => rfl
  | cons w ws ih =>
    obtain ⟨roll, rolls, rfl⟩ := List.exists_cons_of_length_eq_add_one hlength.symm
    rw [List.forall_mem_cons] at hforms
    have hrest := ih hforms.2 (Nat.succ.inj hlength)
    rw [piecesOf, List.zipWith_cons_cons, List.flatten_cons, hforms.1.dropBracketed_piece]
    exact congrArg (w.text ++ ·) hrest

section

variable {limits : Limits} {ws : List Written} {s : List Char}

theorem length_withoutPlus (ws : List Written) : (withoutPlus ws).length = ws.length := by
  cases ws <;> rfl

theorem Writes.withoutPlus (h : Writes ws s) : Writes (withoutPlus ws) (dropPlus s) := by
  obtain ⟨hne, ⟨hforms, hsigned⟩, rfl⟩ := h
  obtain ⟨w, ws, rfl⟩ := List.exists_cons_of_ne_nil hne
  rw [List.forall_mem_cons] at hforms
  refine ⟨List.cons_ne_nil _ _, ⟨?_, hsigned⟩, ?_⟩
  · exact List.forall_mem_cons.mpr ⟨hforms.1.withoutPlus, hforms.2⟩
  · rw [rowText_cons, dropPlus_append hforms.1.text_ne_nil, hforms.1.dropPlus_text]
    rfl

/-- No rule looks at a leading plus. -/
theorem Acceptable.withoutPlus (h : Acceptable limits ws) : Acceptable limits (withoutPlus ws) := by
  cases ws with
  | nil => exact h
  | cons w ws =>
    obtain ⟨hw, hws⟩ := List.forall_mem_cons.mp h.fits
    refine ⟨h.length_le, List.forall_mem_cons.mpr ⟨?_, hws⟩, h.dice_le⟩
    exact ⟨hw.numbers_le, hw.count_pos, hw.sides_pos, hw.sides_le⟩

end

def Term.withoutPlus : Term → Term
  | .dice sign count sides raw => .dice sign count sides (String.ofList (dropPlus raw.toList))
  | .constant sign value raw => .constant sign value (String.ofList (dropPlus raw.toList))

def Terms.withoutPlus : Terms → Terms
  | ⟨[]⟩ => ⟨[]⟩
  | ⟨term :: terms⟩ => ⟨term.withoutPlus :: terms⟩

theorem Written.Means.withoutPlus {w : Written} {term : Term} (hw : w.IsWellFormed)
    (h : w.Means term) : w.withoutPlus.Means term.withoutPlus := by
  have htoken : String.ofList (dropPlus w.token.toList) = w.withoutPlus.token := by
    rw [token, String.toList_ofList, hw.dropPlus_text, token]
  cases term with
  | dice sign count sides raw =>
    obtain ⟨rfl, hcount, hsides, rfl⟩ := h
    exact ⟨w.sign_withoutPlus.symm, hcount, hsides, htoken⟩
  | constant sign value raw =>
    obtain ⟨rfl, hvalue, hnone, rfl⟩ := h
    exact ⟨w.sign_withoutPlus.symm, hvalue, hnone, htoken⟩

variable {limits : Limits} {expression : String} {terms : Terms} {set : RollSet}

/-- The expression without a plus in front means the same. -/
theorem Terms.parse_dropPlus (h : parse limits expression = .ok terms) :
    parse limits (String.ofList (dropPlus (stripBlanks expression.toList))) =
      .ok terms.withoutPlus := by
  obtain ⟨ws, hws, hacceptable, hmeans⟩ := ofExpression_eq_ok_iff.mp h
  have hstrip : stripBlanks (dropPlus (stripBlanks expression.toList)) =
      dropPlus (stripBlanks expression.toList) := by
    rw [stripBlanks, List.filter_eq_self]
    intro c hc
    rw [isBlank_of_mem_stripBlanks (mem_of_mem_dropPlus hc), Bool.not_false]
  rw [parse, String.toList_ofList, hstrip]
  refine ofExpression_eq_ok_iff.mpr ⟨_, hws.withoutPlus, hacceptable.withoutPlus, ?_⟩
  obtain ⟨list⟩ := terms
  cases hmeans with
  | nil => exact .nil
  | cons hfirst hrest =>
    exact .cons (hfirst.withoutPlus (hws.row.wellFormed _ List.mem_cons_self)) hrest

/-- The expression is accepted with these terms, and this is what a roller makes of them. -/
structure RolledFrom (limits : Limits) (expression : String) (terms : Terms) (set : RollSet) :
    Prop where
  parsed : Terms.parse limits expression = .ok terms
  rolled : ∃ (σ : Type) (roller : Roller σ) (r r' : Recorded σ),
    (roller.roll terms).run r = .ok set r'

/-- What is known of a set of rolls by the operands of its expression. -/
structure RolledFrom.Shown (ws : List Written) (s : List Char) (terms : Terms) (set : RollSet) :
    Prop where
  writes : Writes ws s
  means : List.Forall₂ Written.Means ws terms.toList
  shows : List.Forall₂ Written.Shows ws set.terms
  total_eq : set.total.toInt = (set.terms.map fun roll => roll.total.toInt).sum

theorem forall₂_shows {ws : List Written} {terms : List Term} {rolls : List TermRoll}
    (hforms : ∀ w ∈ ws, w.IsWellFormed) (hfits : ∀ w ∈ ws, w.Fits limits)
    (hmeans : List.Forall₂ Written.Means ws terms)
    (hexact : List.Forall₂ (fun term (roll : TermRoll) => roll.IsExact term) terms rolls) :
    List.Forall₂ Written.Shows ws rolls := by
  induction hmeans generalizing rolls with
  | nil =>
    cases hexact
    exact .nil
  | cons hmean _ ih =>
    cases hexact with
    | cons hroll hrolls =>
      rw [List.forall_mem_cons] at hforms hfits
      exact .cons (hmean.shows hforms.1 hfits.1 hroll) (ih hforms.2 hfits.2 hrolls)

/-- An expression that was rolled is written by a row its rolls tell. -/
theorem RolledFrom.exists_shown (h : RolledFrom limits expression terms set) :
    ∃ ws, Shown ws (stripBlanks expression.toList) terms set := by
  obtain ⟨hparse, σ, roller, r, r', hrun⟩ := h
  have hwithin := Terms.within_of_parse hparse
  have hrolls := Roller.rollsSet_of_run hwithin hrun
  have hexact := hrolls.isExact hwithin
  obtain ⟨ws, hws, hacceptable, hmeans⟩ := Terms.ofExpression_eq_ok_iff.mp hparse
  exact ⟨ws, hws, hmeans,
    forall₂_shows hws.row.wellFormed hacceptable.fits hmeans hexact.terms_exact, hrolls.total_eq⟩

/-- A description without its spaces. -/
theorem RollSet.dropSpaces_describe {ws : List Written} (hsigned : ∀ w ∈ ws.tail, w.sign?.isSome)
    (h : List.Forall₂ Written.Shows ws set.terms) (limit : Option Nat) :
    dropSpaces (set.describe limit).toList =
      (piecesOf limit (withoutPlus ws) set.terms).flatten := by
  obtain ⟨rolls, total⟩ := set
  cases h with
  | nil => rfl
  | @cons w first ws rest hfirst hrest =>
    have hnext : dropSpaces (String.join (rest.map (describeNext limit))).toList =
        (piecesOf limit ws rest).flatten := by
      clear hfirst
      induction hrest with
      | nil => rfl
      | cons hroll _ ih =>
        rw [List.tail_cons, List.forall_mem_cons] at hsigned
        rw [List.map_cons, String.join_cons, String.toList_append, dropSpaces_append,
          hroll.dropSpaces_describeNext hsigned.1, ih hsigned.2]
        rfl
    rw [describe, String.toList_append, dropSpaces_append, String.toList_append,
      hfirst.dropSpaces_describe_first, hnext]
    rfl

/-- Outside of brackets a description is its expression, without a plus in front. -/
theorem RolledFrom.Shown.bareText_describe {ws : List Written} {s : List Char}
    (h : Shown ws s terms set) (limit : Option Nat) :
    bareText (set.describe limit).toList = dropPlus s := by
  have hwrites := h.writes.withoutPlus
  have hlength := (length_withoutPlus ws).trans h.shows.length_eq
  rw [bareText_eq, RollSet.dropSpaces_describe h.writes.row.signed h.shows,
    dropBracketed_piecesOf hwrites.row.wellFormed hlength, hwrites.text]

end FairDice
