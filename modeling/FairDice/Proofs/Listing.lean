import FairDice.Proofs.Describing

/-!
# The lists in a description, cut at their commas

Each face up to the limit is an item, and one more item counts the faces that are
left out, if there are any. A limit of zero is different: the comma in front of
the count is written although no face is.
-/
namespace FairDice

/-- The items of a list with a comma and a space between them. -/
def splitItems : List Char → List (List Char)
  | [] => [[]]
  | ',' :: ' ' :: s => [] :: splitItems s
  | c :: s => (splitItems s).modifyHead (c :: ·)

/-- The texts between brackets, from left to right. -/
def bracketTexts : List Char → List (List Char)
  | [] => []
  | c :: s => if c = '[' then s.takeWhile (· != ']') :: bracketTexts s else bracketTexts s

/-- How many faces an item tells of: a number is one of them, `3 more...` are as many as it says. -/
def facesTold (item : List Char) : Nat :=
  if Json.isDigits item then 1 else decimalValue (item.takeWhile Char.isDigit)

def faceItem (face : UInt32) : List Char := Nat.toDigits 10 face.toNat

def moreItem (n : Nat) : List Char := Nat.toDigits 10 n ++ " more...".toList

section

variable {s : List Char} {parts : List (List Char)}

theorem splitItems_cons {c : Char} (h : c ≠ ',') (s : List Char) :
    splitItems (c :: s) = (splitItems s).modifyHead (c :: ·) := by
  rw [splitItems]
  rintro t rfl
  exact absurd rfl h

/-- The first item ends at the first separator. -/
theorem splitItems_append (h : ',' ∉ s) (t : List Char) :
    splitItems (s ++ ',' :: ' ' :: t) = s :: splitItems t := by
  induction s with
  | nil => rw [List.nil_append, splitItems]
  | cons c s ih =>
    rw [List.mem_cons, not_or] at h
    rw [List.cons_append, splitItems_cons (Ne.symm h.1), ih h.2, List.modifyHead_cons]

theorem splitItems_of_not_mem (h : ',' ∉ s) : splitItems s = [s] := by
  induction s with
  | nil => rw [splitItems]
  | cons c s ih =>
    rw [List.mem_cons, not_or] at h
    rw [splitItems_cons (Ne.symm h.1), ih h.2, List.modifyHead_cons]

theorem intercalate_concat (separator : List Char) (hne : parts ≠ []) (part : List Char) :
    separator.intercalate (parts ++ [part]) =
      separator.intercalate parts ++ (separator ++ part) := by
  induction parts with
  | nil => exact absurd rfl hne
  | cons first parts ih =>
    by_cases hrest : parts = []
    · subst hrest
      simp
    · rw [List.cons_append, List.intercalate_cons_of_ne_nil (by simp), ih hrest,
        List.intercalate_cons_of_ne_nil hrest]
      simp only [List.append_assoc]

/-- Items that were joined are told apart again, as long as none has a comma. -/
theorem splitItems_intercalate (hne : parts ≠ []) (h : ∀ part ∈ parts, ',' ∉ part) :
    splitItems ([',', ' '].intercalate parts) = parts := by
  induction parts with
  | nil => exact absurd rfl hne
  | cons part parts ih =>
    rw [List.forall_mem_cons] at h
    cases parts with
    | nil => rw [List.intercalate_singleton, splitItems_of_not_mem h.1]
    | cons next parts =>
      have hrest := ih (List.cons_ne_nil _ _) h.2
      rw [List.intercalate_cons_cons, List.append_assoc, List.cons_append, List.singleton_append,
        splitItems_append h.1, hrest]

theorem bracketTexts_append (h : '[' ∉ s) (t : List Char) :
    bracketTexts (s ++ t) = bracketTexts t := by
  induction s with
  | nil => rfl
  | cons c s ih =>
    rw [List.mem_cons, not_or] at h
    rw [List.cons_append, bracketTexts, if_neg (Ne.symm h.1), ih h.2]

/-- Between brackets there is all up to the bracket that closes. -/
theorem bracketTexts_bracket (hopen : '[' ∉ s) (hclose : ']' ∉ s) (t : List Char) :
    bracketTexts ('[' :: (s ++ ']' :: t)) = s :: bracketTexts t := by
  have hinside : ∀ c ∈ s, (c != ']') = true := fun c hc =>
    bne_iff_ne.mpr (ne_of_mem_of_not_mem hc hclose)
  have hend : [']'] ++ t = ']' :: t := rfl
  rw [bracketTexts, if_pos rfl, List.takeWhile_append_of_pos hinside, bracketTexts_append hopen,
    ← hend, bracketTexts_append (by decide)]
  simp

theorem not_mem_faceItem (face : UInt32) : ',' ∉ faceItem face := fun h =>
  absurd (isDigit_of_mem_toDigits h) (by decide)

theorem not_mem_moreItem (n : Nat) : ',' ∉ moreItem n := by
  rw [moreItem, List.mem_append, not_or]
  exact ⟨fun h => absurd (isDigit_of_mem_toDigits h) (by decide), by decide⟩

theorem facesTold_faceItem (face : UInt32) : facesTold (faceItem face) = 1 :=
  if_pos (Json.isDigits_toDigits face.toNat)

/-- The words for more tell how many faces they stand for. -/
theorem facesTold_moreItem (n : Nat) : facesTold (moreItem n) = n := by
  have hnumber : ¬Json.isDigits (moreItem n) := by simp [moreItem, Json.isDigits]
  have hdigits : (moreItem n).takeWhile Char.isDigit = Nat.toDigits 10 n := by
    rw [moreItem, List.takeWhile_append_of_pos fun _ => isDigit_of_mem_toDigits]
    simp
  rw [facesTold, if_neg hnumber, hdigits, decimalValue_toDigits]

end

namespace TermRoll

variable {limit : Option Nat} {roll : TermRoll}

/-- The items for the faces of a roll: those that are shown, and how many are left out. -/
def items (limit : Option Nat) (roll : TermRoll) : List (List Char) :=
  (roll.shown limit).map faceItem ++
    if roll.hidden limit = 0 then [] else [moreItem (roll.hidden limit)]

/-- As long as a face is shown, the items are what stands between the commas. -/
theorem listing_eq_intercalate (h : roll.shown limit ≠ []) :
    roll.listing limit = [',', ' '].intercalate (roll.items limit) := by
  have hne : (roll.shown limit).map faceItem ≠ [] := by simpa using h
  rw [listing, items]
  split
  · rw [List.append_nil, List.append_nil]
    rfl
  · rw [intercalate_concat _ hne, List.append_assoc]
    rfl

theorem not_mem_items (limit : Option Nat) (roll : TermRoll) :
    ∀ item ∈ roll.items limit, ',' ∉ item := by
  intro item hitem
  rw [items, List.mem_append] at hitem
  rcases hitem with hitem | hitem
  · obtain ⟨face, -, rfl⟩ := List.mem_map.mp hitem
    exact not_mem_faceItem face
  · split at hitem
    · cases hitem
    · rw [List.mem_singleton.mp hitem]
      exact not_mem_moreItem _

/-- A listing that shows a face splits into its items. -/
theorem splitItems_listing (h : roll.shown limit ≠ []) :
    splitItems (roll.listing limit) = roll.items limit := by
  have hne : roll.items limit ≠ [] := by simp [items, h]
  rw [listing_eq_intercalate h, splitItems_intercalate hne (roll.not_mem_items limit)]

/-- Where no face is shown, the comma stands behind nothing. -/
theorem splitItems_listing_zero (h : roll.rolls ≠ []) :
    splitItems (roll.listing (some 0)) = [[], moreItem roll.rolls.length] := by
  have hhidden : roll.hidden (some 0) ≠ 0 := by simpa [hidden] using h
  have hlisting : roll.listing (some 0) =
      [] ++ ',' :: ' ' :: moreItem roll.rolls.length := by
    rw [listing, if_neg hhidden]
    rfl
  rw [hlisting, splitItems_append List.not_mem_nil, splitItems_of_not_mem (not_mem_moreItem _)]

/-- Every limit but zero shows a face, if there is one. -/
theorem shown_ne_nil (h : roll.rolls ≠ []) (hlimit : limit ≠ some 0) : roll.shown limit ≠ [] := by
  cases limit with
  | none => exact h
  | some n =>
    have hn : n ≠ 0 := fun hzero => hlimit (congrArg some hzero)
    simp [shown, h, hn]

theorem nil_not_mem_items (limit : Option Nat) (roll : TermRoll) : [] ∉ roll.items limit := by
  rw [items, List.mem_append, not_or]
  constructor
  · rw [List.mem_map]
    rintro ⟨face, -, hnil⟩
    exact Nat.toDigits_ne_nil hnil
  · split
    · exact List.not_mem_nil
    · simp [moreItem]

/-- The items tell of all faces. -/
theorem sum_facesTold_items (limit : Option Nat) (roll : TermRoll) :
    ((roll.items limit).map facesTold).sum = roll.rolls.length := by
  have hshown : (((roll.shown limit).map faceItem).map facesTold).sum =
      (roll.shown limit).length := by
    simp [Function.comp_def, facesTold_faceItem]
  rw [items, List.map_append, List.sum_append, hshown, ← roll.length_shown_add_hidden limit]
  split
  next hzero => rw [hzero]; rfl
  next => simp [facesTold_moreItem]

/-- Without a limit every face is shown, and otherwise as many as the limit says. -/
theorem shown_eq_take (limit : Option Nat) (roll : TermRoll) :
    roll.shown limit = roll.rolls.take (limit.getD roll.rolls.length) := by
  cases limit with
  | none => exact (List.take_length).symm
  | some n => rfl

theorem hidden_eq_sub (limit : Option Nat) (roll : TermRoll) :
    roll.hidden limit = roll.rolls.length - limit.getD roll.rolls.length := by
  cases limit with
  | none => exact (Nat.sub_self _).symm
  | some n => rfl

/-- A limit that is no less than the number of faces is none. -/
theorem describe_of_length_le {n : Nat} (h : roll.rolls.length ≤ n) :
    roll.describe (some n) = roll.describe none := by
  have hshown : roll.shown (some n) = roll.shown none := List.take_of_length_le h
  have hhidden : roll.hidden (some n) = roll.hidden none := Nat.sub_eq_zero_of_le h
  rw [describe, describe, faceList, faceList, hshown, hhidden]

theorem bracketTexts_describe_append (h : '[' ∉ roll.term.toList) (limit : Option Nat)
    (t : List Char) :
    bracketTexts ((roll.describe limit).toList ++ t) =
      (if roll.isConstant then [] else [roll.listing limit]) ++ bracketTexts t := by
  have hterm : '[' ∉ roll.term.toList.dropWhile isOperator := fun hmem =>
    h ((List.dropWhile_sublist _).mem hmem)
  rw [toList_describe, List.append_assoc, bracketTexts_append hterm, brackets]
  split
  · rfl
  · have hopen : '[' ∉ roll.listing limit := fun hmem =>
      absurd (isListed_of_mem_listing hmem) (by decide)
    have hclose : ']' ∉ roll.listing limit := fun hmem =>
      absurd (isListed_of_mem_listing hmem) (by decide)
    rw [List.cons_append, List.append_assoc]
    exact bracketTexts_bracket hopen hclose t

/-- A described term has one bracket if it has dice, and otherwise none. -/
theorem bracketTexts_describe (h : '[' ∉ roll.term.toList) (limit : Option Nat) :
    bracketTexts (roll.describe limit).toList =
      if roll.isConstant then [] else [roll.listing limit] := by
  have hnil := bracketTexts_describe_append h limit []
  rwa [List.append_nil, bracketTexts, List.append_nil] at hnil

end TermRoll

/-- The lists in the description of a set are those in the descriptions of its terms. -/
theorem RollSet.bracketTexts_describe {set : RollSet}
    (h : ∀ roll ∈ set.terms, '[' ∉ roll.term.toList) (limit : Option Nat) :
    bracketTexts (set.describe limit).toList =
      set.terms.flatMap fun roll => bracketTexts (roll.describe limit).toList := by
  obtain ⟨rolls, total⟩ := set
  have hnext (rest : List TermRoll) (h : ∀ roll ∈ rest, '[' ∉ roll.term.toList) :
      bracketTexts (String.join (rest.map (describeNext limit))).toList =
        rest.flatMap fun roll => bracketTexts (roll.describe limit).toList := by
    induction rest with
    | nil => rfl
    | cons roll rest ih =>
      rw [List.forall_mem_cons] at h
      have hoperator : '[' ∉ (if roll.isNegative then " - " else " + ").toList := by
        split <;> decide
      rw [List.map_cons, String.join_cons, String.toList_append, describeNext,
        String.toList_append, List.append_assoc, bracketTexts_append hoperator,
        TermRoll.bracketTexts_describe_append h.1, ih h.2, List.flatMap_cons,
        TermRoll.bracketTexts_describe h.1]
  cases rolls with
  | nil => rfl
  | cons first rest =>
    rw [List.forall_mem_cons] at h
    have hoperator : '[' ∉ (if first.isNegative then "-" else "").toList := by
      split <;> decide
    rw [describe, String.toList_append, String.toList_append, List.append_assoc,
      bracketTexts_append hoperator, TermRoll.bracketTexts_describe_append h.1, hnext rest h.2,
      List.flatMap_cons, TermRoll.bracketTexts_describe h.1]

variable {limits : Limits} {expression : String} {terms : Terms} {set : RollSet}

theorem forall_not_mem_term {ws : List Written} {rolls : List TermRoll}
    (h : List.Forall₂ Written.Shows ws rolls) : ∀ roll ∈ rolls, '[' ∉ roll.term.toList := by
  induction h with
  | nil => simp
  | cons hshows _ ih =>
    refine List.forall_mem_cons.mpr ⟨?_, ih⟩
    rw [hshows.toList_term]
    exact hshows.wellFormed.not_mem_text (by decide) (by decide) (by decide)

/-- What stands between the brackets behind dice. Each face up to the limit is an item of its own,
and the faces behind it are one item. -/
structure ListsFaces (limit : Option Nat) (roll : TermRoll) (text : List Char) : Prop where
  bracketTexts_eq : bracketTexts (roll.describe limit).toList = [text]
  splitItems_eq : limit ≠ some 0 →
    splitItems text = (roll.rolls.take (limit.getD roll.rolls.length)).map faceItem ++
      if limit.getD roll.rolls.length < roll.rolls.length then
        [moreItem (roll.rolls.length - limit.getD roll.rolls.length)]
      else []
  nil_not_mem : limit ≠ some 0 → [] ∉ splitItems text
  sum_facesTold : limit ≠ some 0 → ((splitItems text).map facesTold).sum = roll.rolls.length
  splitItems_zero : limit = some 0 → splitItems text = [[], moreItem roll.rolls.length]

/-- The bracket of a rolled term lists its faces. -/
theorem TermRoll.listsFaces {roll : TermRoll} (hterm : '[' ∉ roll.term.toList)
    (hne : roll.rolls ≠ []) (limit : Option Nat) : ListsFaces limit roll (roll.listing limit) := by
  have hconstant : ¬roll.isConstant := by simpa [isConstant] using hne
  have hsplit (hlimit : limit ≠ some 0) : splitItems (roll.listing limit) = roll.items limit :=
    splitItems_listing (shown_ne_nil hne hlimit)
  constructor
  case bracketTexts_eq => rw [bracketTexts_describe hterm, if_neg hconstant]
  case splitItems_eq =>
    intro hlimit
    rw [hsplit hlimit, items, shown_eq_take, hidden_eq_sub]
    simp only [Nat.sub_eq_zero_iff_le, ← Nat.not_lt, ite_not]
  case nil_not_mem =>
    intro hlimit
    rw [hsplit hlimit]
    exact roll.nil_not_mem_items limit
  case sum_facesTold =>
    intro hlimit
    rw [hsplit hlimit]
    exact roll.sum_facesTold_items limit
  case splitItems_zero =>
    rintro rfl
    exact splitItems_listing_zero hne

/-- What a description lists for a term: all its faces for dice, and nothing for a constant. -/
def Term.ListedAs (limit : Option Nat) (roll : TermRoll) : Term → Prop
  | .dice _ count _ _ =>
    1 ≤ roll.rolls.length ∧ roll.rolls.length = count.toNat ∧ (∃ text, ListsFaces limit roll text) ∧
      ∀ n, roll.rolls.length ≤ n → roll.describe (some n) = roll.describe none
  | .constant .. => bracketTexts (roll.describe limit).toList = []

/-- Every term of a set has its faces listed, or none if it is a constant. -/
theorem forall₂_listedAs {terms : List Term} {rolls : List TermRoll}
    (hexact : List.Forall₂ (fun term (roll : TermRoll) => roll.IsExact term) terms rolls)
    (hterms : ∀ term ∈ terms, term.Within limits)
    (hbracket : ∀ roll ∈ rolls, '[' ∉ roll.term.toList) (limit : Option Nat) :
    List.Forall₂ (fun term roll => term.ListedAs limit roll) terms rolls := by
  induction hexact with
  | nil => exact .nil
  | @cons term roll _ _ hroll _ ih =>
    rw [List.forall_mem_cons] at hterms hbracket
    refine .cons ?_ (ih hterms.2 hbracket.2)
    cases term with
    | dice sign count sides raw =>
      obtain ⟨-, hlength, -, -⟩ := hroll
      have hpos : 1 ≤ roll.rolls.length := by
        rw [hlength]
        exact hterms.1.1
      have hne : roll.rolls ≠ [] := List.ne_nil_of_length_pos hpos
      exact ⟨hpos, hlength, ⟨_, roll.listsFaces hbracket.1 hne limit⟩,
        fun _ => TermRoll.describe_of_length_le⟩
    | constant sign value raw =>
      obtain ⟨hroll, -, -⟩ := hroll
      have hconstant : roll.isConstant := by
        rw [hroll]
        rfl
      rw [Term.ListedAs, TermRoll.bracketTexts_describe hbracket.1, if_pos hconstant]

/-- The description of a roll lists its faces up to the limit, and counts the others. -/
theorem descriptions_list_faces (limits : Limits) (expression : String) (terms : Terms)
    (set : RollSet) (h : RolledFrom limits expression terms set) (limit : Option Nat) :
    List.Forall₂ (fun term roll => term.ListedAs limit roll) terms.toList set.terms ∧
      bracketTexts (set.describe limit).toList =
        set.terms.flatMap fun roll => bracketTexts (roll.describe limit).toList := by
  obtain ⟨ws, hshown⟩ := h.exists_shown
  obtain ⟨hparse, σ, roller, r, r', hrun⟩ := h
  have hwithin := Terms.within_of_parse hparse
  have hexact := (Roller.rollsSet_of_run hwithin hrun).isExact hwithin
  have hbracket := forall_not_mem_term hshown.shows
  exact ⟨forall₂_listedAs hexact.terms_exact hwithin.within hbracket limit,
    RollSet.bracketTexts_describe hbracket limit⟩

/-- One face of three is listed, and none behind a constant. -/
theorem descriptions_list_faces_one_shown :
    let terms : Terms := ⟨[.dice .plus 3 6 "3d6", .constant .minus 3 "-3"]⟩
    let set : RollSet := ⟨[⟨"3d6", [3, 5, 2], 10⟩, ⟨"-3", [], -3⟩], 7⟩
    RolledFrom .default "3d6 - 3" terms set ∧ set.describe (some 1) = "3d6[3, 2 more...] - 3" ∧
      List.Forall₂ (fun term roll => term.ListedAs (some 1) roll) terms.toList set.terms ∧
      bracketTexts (set.describe (some 1)).toList = ["3, 2 more...".toList] := by
  intro terms set
  have hparse : Terms.parse .default "3d6 - 3" = .ok terms := by decide
  have hrolled : RolledFrom .default "3d6 - 3" terms set :=
    ⟨hparse, DieSource, DieSource.roller, ⟨.faces [3, 5, 2], []⟩, _, rfl⟩
  obtain ⟨hlisted, htexts⟩ :=
    descriptions_list_faces .default "3d6 - 3" terms set hrolled (some 1)
  refine ⟨hrolled, by decide, hlisted, ?_⟩
  rw [htexts]
  decide

/-- Under a limit of zero there is an empty item in front of the count. -/
theorem empty_item_at_limit_zero :
    let roll : TermRoll := ⟨"2d6", [3, 5], 8⟩
    RolledFrom .default "2d6" ⟨[.dice .plus 2 6 "2d6"]⟩ ⟨[roll], 8⟩ ∧
      roll.describe (some 0) = "2d6[, 2 more...]" ∧
      ∃ text, bracketTexts (roll.describe (some 0)).toList = [text] ∧
        splitItems text = [[], moreItem 2] ∧
        splitItems text ≠ (roll.rolls.take 0).map faceItem ++ [moreItem 2] := by
  intro roll
  have hparse : Terms.parse .default "2d6" = .ok ⟨[.dice .plus 2 6 "2d6"]⟩ := by decide
  have hrolled : RolledFrom .default "2d6" ⟨[.dice .plus 2 6 "2d6"]⟩ ⟨[roll], 8⟩ :=
    ⟨hparse, DieSource, DieSource.roller, ⟨.faces [3, 5], []⟩, _, rfl⟩
  exact ⟨hrolled, by decide, ", 2 more...".toList, by decide, by decide, by decide⟩

end FairDice
