import FairDice.Proofs.Describing

/-!
# Descriptions read back

A full description is cut before its operators like an expression; each piece
shows its sign, its operand and the faces in the brackets behind it, and working
out the sum that it says gives the total. So what was rolled can be told from the
description, and checked against it.
-/
namespace FairDice

/-- What a description says of one term. -/
structure Said where
  sign : Sign
  operand : List Char
  /-- The faces between the brackets, if there are any brackets. -/
  faces? : Option (List Nat)
  deriving DecidableEq, Repr

namespace Said

def ofPiece (piece : List Char) : Said :=
  let told := piece.dropWhile isOperator
  { sign := if piece.head? = some '-' then .minus else .plus
    operand := told.takeWhile (· != '[')
    faces? :=
      match told.dropWhile (· != '[') with
      | [] => none
      | _ :: list => some (((list.takeWhile (· != ']')).splitOn ',').map decimalValue) }

/-- Plus or minus the sum of the faces, or the number where there are none. -/
def value (said : Said) : Int :=
  said.sign.factor *
    match said.faces? with
    | some faces => (faces.sum : Nat)
    | none => decimalValue said.operand

def ofTerm (term : Term) (roll : TermRoll) : Said :=
  { sign := term.sign
    operand := term.raw.toList.dropWhile isOperator
    faces? :=
      match term with
      | .dice .. => some (roll.rolls.map UInt32.toNat)
      | .constant .. => none }

end Said

def readDescription (text : String) : List Said :=
  (pieces (dropSpaces text.toList)).map Said.ofPiece

/-- The sum that a description says, worked out. -/
def workOut (text : String) : Int := ((readDescription text).map Said.value).sum

theorem dropSpaces_intercalate (separator : List Char) (parts : List (List Char)) :
    dropSpaces (separator.intercalate parts) =
      (dropSpaces separator).intercalate (parts.map dropSpaces) := by
  induction parts with
  | nil => rfl
  | cons part parts ih =>
    cases parts with
    | nil => simp
    | cons next parts =>
      rw [List.intercalate_cons_cons, dropSpaces_append, dropSpaces_append, ih]
      simp

namespace TermRoll

/-- The faces in full, without spaces. -/
theorem dropSpaces_listing (roll : TermRoll) :
    dropSpaces (roll.listing none) =
      [','].intercalate (roll.rolls.map fun face => Nat.toDigits 10 face.toNat) := by
  have hdigits : ∀ face : UInt32, dropSpaces (Nat.toDigits 10 face.toNat) =
      Nat.toDigits 10 face.toNat := fun face =>
    dropSpaces_eq_self fun h => absurd (isDigit_of_mem_toDigits h) (by decide)
  have hlisting : roll.listing none =
      [',', ' '].intercalate (roll.rolls.map fun face => Nat.toDigits 10 face.toNat) := by
    simp [listing, shown, hidden]
  rw [hlisting, dropSpaces_intercalate, List.map_map]
  simp only [Function.comp_def, hdigits]
  rfl

/-- The faces are read back from their listing. -/
theorem map_decimalValue_splitOn_listing {roll : TermRoll} (h : roll.rolls ≠ []) :
    ((dropSpaces (roll.listing none)).splitOn ',').map decimalValue =
      roll.rolls.map UInt32.toNat := by
  have hcomma : ∀ digits ∈ roll.rolls.map fun face => Nat.toDigits 10 face.toNat,
      ',' ∉ digits := by
    intro digits hdigits hmem
    obtain ⟨face, -, rfl⟩ := List.mem_map.mp hdigits
    exact absurd (isDigit_of_mem_toDigits hmem) (by decide)
  rw [dropSpaces_listing, List.splitOn_intercalate ',' hcomma (by simpa using h), List.map_map]
  exact List.map_congr_left fun face _ => decimalValue_toDigits face.toNat

/-- No operator stands in the brackets. -/
theorem isOperator_of_mem_brackets {limit : Option Nat} {roll : TermRoll} {c : Char}
    (h : c ∈ roll.brackets limit) : isOperator c = false := by
  rw [brackets] at h
  split at h
  · cases h
  · rw [List.mem_cons, List.mem_append, List.mem_singleton] at h
    obtain rfl | h | rfl := h
    · decide
    · have hlisted := isListed_of_mem_listing h
      rw [Bool.eq_false_iff]
      intro hoperator
      rcases isOperator_iff.mp hoperator with rfl | rfl <;> exact absurd hlisted (by decide)
    · decide

end TermRoll

namespace Written

variable {w : Written} {term : Term} {roll : TermRoll} {limit : Option Nat}

theorem IsWellFormed.piece_ne_nil (h : w.IsWellFormed) : w.piece limit roll ≠ [] := by
  rw [piece]
  exact List.append_ne_nil_of_left_ne_nil h.text_ne_nil _

theorem IsWellFormed.isOperator_tail_piece (h : w.IsWellFormed) :
    ∀ c ∈ (w.piece limit roll).tail, isOperator c = false := by
  intro c hc
  rw [piece, List.tail_append_of_ne_nil h.text_ne_nil, List.mem_append] at hc
  rcases hc with hc | hc
  · exact h.isOperator_tail c hc
  · exact TermRoll.isOperator_of_mem_brackets (List.mem_of_mem_filter hc)

/-- What there is to say of an operand and its faces. -/
def said (w : Written) (roll : TermRoll) : Said :=
  ⟨w.sign, w.body, if roll.isConstant then none else some (roll.rolls.map UInt32.toNat)⟩

/-- A piece of a full description says all of its operand and faces. -/
theorem IsWellFormed.ofPiece_piece (h : w.IsWellFormed) (roll : TermRoll) :
    Said.ofPiece (w.piece none roll) = w.said roll := by
  have hsign : (if (w.piece none roll).head? = some '-' then Sign.minus else .plus) = w.sign := by
    rw [piece, List.head?_append_of_ne_nil _ h.text_ne_nil, sign]
    simp only [h.head?_text_iff]
    cases hs : w.sign? with
    | none => rfl
    | some sign => cases sign <;> rfl
  have htold : (w.piece none roll).dropWhile isOperator =
      w.body ++ dropSpaces (roll.brackets none) := h.dropWhile_text_append _
  have hbody : ∀ c ∈ w.body, (c != '[') = true := fun c hc =>
    bne_iff_ne.mpr (ne_of_mem_of_not_mem hc (h.not_mem_body (by decide) (by decide)))
  rw [Said.ofPiece, hsign, htold, said]
  simp only [List.takeWhile_append_of_pos hbody, List.dropWhile_append_of_pos hbody]
  by_cases hconstant : roll.isConstant
  · rw [TermRoll.brackets_of_isConstant hconstant, if_pos hconstant]
    simp [dropSpaces]
  · have hlisting : ∀ c ∈ dropSpaces (roll.listing none), (c != ']') = true := fun c hc =>
      bne_iff_ne.mpr (ne_of_mem_of_not_mem hc (roll.not_mem_dropSpaces_listing none))
    have hne : roll.rolls ≠ [] := fun hnil => hconstant (List.isEmpty_iff.mpr hnil)
    have hfaces := TermRoll.map_decimalValue_splitOn_listing hne
    rw [TermRoll.dropSpaces_brackets hconstant, if_neg hconstant]
    simp [List.takeWhile_append_of_pos hlisting, hfaces]

/-- What an operand says does not depend on a leading plus. -/
theorem said_withoutPlus (w : Written) (roll : TermRoll) :
    w.withoutPlus.said roll = w.said roll := by
  rw [said, sign_withoutPlus]
  rfl

/-- The term and the operand it is read from say the same. -/
theorem Means.ofTerm_eq (hw : w.IsWellFormed) (hmeans : w.Means term) (hshows : w.Shows roll) :
    Said.ofTerm term roll = w.said roll := by
  have hoperand := hw.dropWhile_text
  cases term with
  | dice sign count sides raw =>
    obtain ⟨rfl, -, ⟨digits, hdigits, -⟩, rfl⟩ := hmeans
    have hconstant : roll.isConstant = false := by rw [hshows.isConstant_eq, hdigits]; rfl
    simp [Said.ofTerm, said, Term.sign, Term.raw, token, hoperand, hconstant]
  | constant sign value raw =>
    obtain ⟨rfl, -, hnone, rfl⟩ := hmeans
    have hconstant : roll.isConstant = true := by rw [hshows.isConstant_eq, hnone]; rfl
    simp [Said.ofTerm, said, Term.sign, Term.raw, token, hoperand, hconstant]

/-- What is said of an operand is worth the total of its roll. -/
theorem Shows.value_said (h : w.Shows roll) : (w.said roll).value = roll.total.toInt := by
  rw [h.total_eq, Said.value, said, h.isConstant_eq]
  cases hsides : w.sides? with
  | none => simp [body, hsides]
  | some digits => simp [faceTotal, Function.comp_def]

theorem faces?_said (w : Written) (roll : TermRoll) :
    (w.said roll).faces?.getD [] = roll.rolls.map UInt32.toNat := by
  rw [said]
  split
  · next hconstant =>
    rw [List.isEmpty_iff.mp hconstant]
    rfl
  · rfl

end Written

/-- What is said of a row of operands, read off one by one. -/
theorem map_zipWith_said {α : Type} {ws : List Written} {rolls : List TermRoll} {f : Said → α}
    {g : TermRoll → α} (h : List.Forall₂ Written.Shows ws rolls)
    (hsaid : ∀ {w : Written} {roll : TermRoll}, w.Shows roll → f (w.said roll) = g roll) :
    (List.zipWith Written.said ws rolls).map f = rolls.map g := by
  induction h with
  | nil => rfl
  | cons hshows _ ih => rw [List.zipWith_cons_cons, List.map_cons, List.map_cons, hsaid hshows, ih]

/-- What can be read off is the same for rolls of which the same is said. -/
theorem map_eq_of_zipWith_said_eq {α β : Type} {ws ws' : List Written} {rolls rolls' : List TermRoll}
    {f : Said → β} {g : TermRoll → α} {i : α → β} (hinjective : Function.Injective i)
    (h : List.Forall₂ Written.Shows ws rolls) (h' : List.Forall₂ Written.Shows ws' rolls')
    (hsaid : List.zipWith Written.said ws rolls = List.zipWith Written.said ws' rolls')
    (hread : ∀ {w : Written} {roll : TermRoll}, w.Shows roll → f (w.said roll) = i (g roll)) :
    rolls.map g = rolls'.map g := by
  have hmap := map_zipWith_said (g := fun roll => i (g roll)) h hread
  rw [hsaid, map_zipWith_said (g := fun roll => i (g roll)) h' hread] at hmap
  apply List.map_injective_iff.mpr hinjective
  rw [List.map_map, List.map_map]
  exact hmap.symm

theorem zipWith_ofTerm {ws : List Written} {terms : List Term} {rolls : List TermRoll}
    (hforms : ∀ w ∈ ws, w.IsWellFormed) (hmeans : List.Forall₂ Written.Means ws terms)
    (hshows : List.Forall₂ Written.Shows ws rolls) :
    List.zipWith Said.ofTerm terms rolls = List.zipWith Written.said ws rolls := by
  induction hmeans generalizing rolls with
  | nil => rfl
  | cons hmean _ ih =>
    cases hshows with
    | cons hshow hrest =>
      rw [List.forall_mem_cons] at hforms
      rw [List.zipWith_cons_cons, List.zipWith_cons_cons, hmean.ofTerm_eq hforms.1 hshow,
        ih hforms.2 hrest]

theorem exists_of_mem_piecesOf {limit : Option Nat} {ws : List Written} {rolls : List TermRoll}
    {piece : List Char} (h : piece ∈ piecesOf limit ws rolls) :
    ∃ w ∈ ws, ∃ roll, w.piece limit roll = piece := by
  induction ws generalizing rolls with
  | nil => cases h
  | cons w ws ih =>
    cases rolls with
    | nil => cases h
    | cons roll rolls =>
      rcases List.mem_cons.mp h with rfl | h
      · exact ⟨w, List.mem_cons_self, roll, rfl⟩
      · obtain ⟨v, hv, roll', hpiece⟩ := ih h
        exact ⟨v, List.mem_cons_of_mem _ hv, roll', hpiece⟩

/-- The pieces of a description come apart where its terms begin. -/
theorem pieces_flatten_piecesOf {ws : List Written} (h : IsRow ws) (limit : Option Nat)
    (rolls : List TermRoll) :
    pieces (piecesOf limit ws rolls).flatten = piecesOf limit ws rolls := by
  refine pieces_flatten ?_ ?_ ?_
  · intro hnil
    obtain ⟨w, hw, roll, hpiece⟩ := exists_of_mem_piecesOf hnil
    exact (h.wellFormed w hw).piece_ne_nil hpiece
  · intro piece hpiece
    obtain ⟨w, hw, roll, rfl⟩ := exists_of_mem_piecesOf hpiece
    exact (h.wellFormed w hw).isOperator_tail_piece
  · intro piece hpiece
    rw [piecesOf, List.tail_zipWith] at hpiece
    obtain ⟨w, hw, roll, rfl⟩ := exists_of_mem_piecesOf hpiece
    have hform := h.wellFormed w (List.mem_of_mem_tail hw)
    obtain ⟨sign, hsign⟩ := Written.head?_text_of_signed (h.signed w hw)
    exact ⟨sign, by rw [Written.piece, List.head?_append_of_ne_nil _ hform.text_ne_nil, hsign]⟩

/-- Each described operand is read back as what it says. -/
theorem map_ofPiece_piecesOf {ws : List Written} (hforms : ∀ w ∈ ws, w.IsWellFormed)
    (rolls : List TermRoll) :
    (piecesOf none ws rolls).map Said.ofPiece = List.zipWith Written.said ws rolls := by
  induction ws generalizing rolls with
  | nil => rfl
  | cons w ws ih =>
    cases rolls with
    | nil => rfl
    | cons roll rolls =>
      rw [List.forall_mem_cons] at hforms
      have hrest := ih hforms.2 rolls
      rw [piecesOf, List.zipWith_cons_cons, List.map_cons, hforms.1.ofPiece_piece,
        List.zipWith_cons_cons]
      exact congrArg (_ :: ·) hrest

theorem zipWith_said_withoutPlus (ws : List Written) (rolls : List TermRoll) :
    List.zipWith Written.said (withoutPlus ws) rolls = List.zipWith Written.said ws rolls := by
  cases ws with
  | nil => rfl
  | cons w ws =>
    cases rolls with
    | nil => rfl
    | cons roll rolls =>
      rw [withoutPlus, List.zipWith_cons_cons, w.said_withoutPlus, List.zipWith_cons_cons]

namespace RolledFrom.Shown

variable {ws : List Written} {s : List Char} {terms : Terms} {set : RollSet}

/-- A full description read back says of each term what there is to say. -/
theorem readDescription_describe (h : Shown ws s terms set) :
    readDescription (set.describe none) = List.zipWith Written.said ws set.terms := by
  have hrow := h.writes.withoutPlus.row
  rw [readDescription, RollSet.dropSpaces_describe h.writes.row.signed h.shows,
    pieces_flatten_piecesOf hrow, map_ofPiece_piecesOf hrow.wellFormed, zipWith_said_withoutPlus]

/-- The arithmetic of a description comes to the total of the set. -/
theorem workOut_describe (h : Shown ws s terms set) :
    workOut (set.describe none) = set.total.toInt := by
  rw [workOut, h.readDescription_describe, map_zipWith_said h.shows Written.Shows.value_said,
    h.total_eq]

end RolledFrom.Shown

/-- All that a description tells of the rolls that it describes. -/
structure IsTold (limits : Limits) (expression : String) (terms : Terms) (set : RollSet) :
    Prop where
  /-- Outside of brackets there is the expression. -/
  bare (limit : Option Nat) :
    bareText (set.describe limit).toList = dropPlus (stripBlanks expression.toList)
  /-- What is outside of brackets means the same terms. -/
  parsed (limit : Option Nat) :
    Terms.parse limits (String.ofList (bareText (set.describe limit).toList)) =
      .ok terms.withoutPlus
  length_eq : set.terms.length = terms.length
  /-- The full description lists the faces of all dice, in order, behind their terms. -/
  listed : readDescription (set.describe none) = List.zipWith Said.ofTerm terms.toList set.terms
  workOut_eq : workOut (set.describe none) = set.total.toInt

variable {limits limits' : Limits} {expression expression' : String} {terms terms' : Terms}
  {set set' : RollSet}

/-- A description without a limit tells the expression and every roll. -/
theorem RolledFrom.isTold (h : RolledFrom limits expression terms set) :
    IsTold limits expression terms set := by
  obtain ⟨ws, hshown⟩ := h.exists_shown
  constructor
  case bare => exact hshown.bareText_describe
  case parsed =>
    intro limit
    rw [hshown.bareText_describe, Terms.parse_dropPlus h.parsed]
  case length_eq => exact hshown.shows.length_eq.symm.trans hshown.means.length_eq
  case listed =>
    rw [hshown.readDescription_describe,
      zipWith_ofTerm hshown.writes.row.wellFormed hshown.means hshown.shows]
  case workOut_eq => exact hshown.workOut_describe

/-- Rolls that are described alike come from one expression and are alike. -/
theorem RolledFrom.eq_of_describe_eq (h : RolledFrom limits expression terms set)
    (h' : RolledFrom limits' expression' terms' set')
    (hdescribe : set.describe none = set'.describe none) :
    dropPlus (stripBlanks expression.toList) = dropPlus (stripBlanks expression'.toList) ∧
      set.terms.map TermRoll.rolls = set'.terms.map TermRoll.rolls ∧
      set.terms.map TermRoll.total = set'.terms.map TermRoll.total ∧ set.total = set'.total := by
  obtain ⟨ws, hshown⟩ := h.exists_shown
  obtain ⟨ws', hshown'⟩ := h'.exists_shown
  have hsaid : List.zipWith Written.said ws set.terms =
      List.zipWith Written.said ws' set'.terms := by
    rw [← hshown.readDescription_describe, hdescribe, hshown'.readDescription_describe]
  refine ⟨?_, ?_, ?_, ?_⟩
  · rw [← hshown.bareText_describe none, hdescribe, hshown'.bareText_describe]
  · have hnumbers : Function.Injective (List.map UInt32.toNat) :=
      List.map_injective_iff.mpr fun _ _ => UInt32.toNat_inj.mp
    exact map_eq_of_zipWith_said_eq hnumbers hshown.shows hshown'.shows hsaid
      (f := (·.faces?.getD [])) fun _ => Written.faces?_said _ _
  · exact map_eq_of_zipWith_said_eq (fun _ _ => Int64.toInt_inj.mp) hshown.shows hshown'.shows
      hsaid Written.Shows.value_said
  · apply Int64.toInt_inj.mp
    rw [← hshown.workOut_describe, hdescribe, hshown'.workOut_describe]

/-- Descriptions tell what was rolled: the expression, all faces and the total can be had back from
them, and only like rolls are described alike. -/
theorem descriptions_tell_rolls :
    (∀ limits expression terms set, RolledFrom limits expression terms set →
      IsTold limits expression terms set) ∧
    ∀ limits limits' expression expression' terms terms' set set',
      RolledFrom limits expression terms set → RolledFrom limits' expression' terms' set' →
      set.describe none = set'.describe none →
        dropPlus (stripBlanks expression.toList) = dropPlus (stripBlanks expression'.toList) ∧
        set.terms.map TermRoll.rolls = set'.terms.map TermRoll.rolls ∧
        set.terms.map TermRoll.total = set'.terms.map TermRoll.total ∧ set.total = set'.total :=
  ⟨fun _ _ _ _ => RolledFrom.isTold, fun _ _ _ _ _ _ _ _ => RolledFrom.eq_of_describe_eq⟩

/-- A plus in front is not told, a zero in front is, and faces may be above the sides. -/
theorem descriptions_tell_rolls_zero_in_front :
    let terms : Terms := ⟨[.dice .plus 2 6 "+02d6", .constant .minus 3 "-3"]⟩
    let set : RollSet := ⟨[⟨"+02d6", [7, 7], 14⟩, ⟨"-3", [], -3⟩], 11⟩
    set.describe none = "02d6[7, 7] - 3" ∧ set.describe (some 1) = "02d6[7, 1 more...] - 3" ∧
      RolledFrom .default "+02d6 -3" terms set ∧ IsTold .default "+02d6 -3" terms set := by
  intro terms set
  have hparse : Terms.parse .default "+02d6 -3" = .ok terms := by decide
  have hrolled : RolledFrom .default "+02d6 -3" terms set :=
    ⟨hparse, Unit, ⟨fun _ => pure 7⟩, ⟨(), []⟩, _, rfl⟩
  exact ⟨by decide, by decide, hrolled, descriptions_tell_rolls.1 _ _ _ _ hrolled⟩

end FairDice
