import Mathlib
import FairDice.Proofs.Rolling
import FairDice.Proofs.Uniformity

/-!
# Evaluations on random words are fair

The words for the dice lie one after the other, each die takes words until one is
not passed over, and no word serves two dice. So the faces of different dice come
from different words, and as many sequences of words lead to any faces of all
dice as to any others.
-/
namespace FairDice

variable {sides face : UInt32} {dice faces words rest : List UInt32} {blocks : List (List UInt32)}

/-- Words that show a face of a die: some that are passed over, then one that leads to it. -/
def ShowFace (sides face : UInt32) (words : List UInt32) : Prop :=
  ∃ passed word, words = passed ++ [word] ∧ (∀ other ∈ passed, faceOfWord? sides other = none) ∧
    faceOfWord? sides word = some face

/-- Blocks of words that show faces of dice, one block for each die. -/
inductive ShowFaces : List UInt32 → List UInt32 → List (List UInt32) → Prop
  | nil : ShowFaces [] [] []
  | cons {sides face : UInt32} {block : List UInt32} {dice faces : List UInt32}
      {blocks : List (List UInt32)} :
    ShowFace sides face block → ShowFaces dice faces blocks →
      ShowFaces (sides :: dice) (face :: faces) (block :: blocks)

/-- A face is shown by a block of words in front, and the other words are left. -/
theorem rollWords?_eq_some_iff :
    rollWords? sides words = some (face, rest) ↔
      ∃ block, words = block ++ rest ∧ ShowFace sides face block := by
  constructor
  · intro h
    induction words with
    | nil => cases h
    | cons word words ih =>
      rw [rollWords?] at h
      cases hword : faceOfWord? sides word with
      | some shown =>
        rw [hword] at h
        obtain ⟨rfl, rfl⟩ : shown = face ∧ words = rest := by simpa using h
        exact ⟨[word], rfl, [], word, rfl, by simp, hword⟩
      | none =>
        rw [hword] at h
        obtain ⟨_, rfl, passed, last, rfl, hpassed, hlast⟩ := ih h
        refine ⟨word :: (passed ++ [last]), rfl, word :: passed, last, rfl, ?_, hlast⟩
        exact List.forall_mem_cons.mpr ⟨hword, hpassed⟩
  · rintro ⟨_, rfl, passed, word, rfl, hpassed, hword⟩
    induction passed with
    | nil => simp [rollWords?, hword]
    | cons other passed ih =>
      rw [List.forall_mem_cons] at hpassed
      rw [List.cons_append, List.cons_append, rollWords?, hpassed.1]
      exact ih hpassed.2

/-- A die of the word source is rolled from the words it has, or it runs out of them. -/
theorem run_rollDie_words (h : sides ≠ 0) (words : List UInt32) :
    (DieSource.roller.rollDie sides).run (.words words) =
      match rollWords? sides words with
      | some (face, rest) => .ok face (.words rest)
      | none => .error .wordsExhausted (.words []) :=
  if_neg h

/-- Blocks that show faces of the dice are what the dice take, and show them these faces. -/
theorem ShowFaces.run_draw (h : ShowFaces dice faces blocks) (hsides : ∀ sides ∈ dice, sides ≠ 0)
    (rest : List UInt32) :
    (DieSource.roller.draw dice).run (.words (blocks.flatten ++ rest)) =
      .ok faces (.words rest) := by
  induction h with
  | nil => rfl
  | @cons sides face block dice faces blocks hblock _ ih =>
    rw [List.forall_mem_cons] at hsides
    have hfirst : rollWords? sides ((block :: blocks).flatten ++ rest) =
        some (face, blocks.flatten ++ rest) :=
      rollWords?_eq_some_iff.mpr ⟨block, by simp, hblock⟩
    rw [Roller.draw_cons]
    simp only [EStateM.run_bind, run_rollDie_words hsides.1, hfirst, ih hsides.2]
    rfl

/-- Dice find their blocks one after the other, or the words do not suffice. -/
theorem blocks_or_run_draw (hsides : ∀ sides ∈ dice, sides ≠ 0) (words : List UInt32) :
    (∃ faces blocks rest, words = blocks.flatten ++ rest ∧ ShowFaces dice faces blocks) ∨
      (DieSource.roller.draw dice).run (.words words) = .error .wordsExhausted (.words []) := by
  induction dice generalizing words with
  | nil => exact .inl ⟨[], [], words, rfl, .nil⟩
  | cons sides dice ih =>
    rw [List.forall_mem_cons] at hsides
    rw [Roller.draw_cons]
    simp only [EStateM.run_bind, run_rollDie_words hsides.1]
    cases hfirst : rollWords? sides words with
    | none => exact .inr rfl
    | some found =>
      obtain ⟨face, rest⟩ := found
      obtain ⟨block, rfl, hblock⟩ := rollWords?_eq_some_iff.mp hfirst
      obtain ⟨faces, blocks, rest, rfl, hblocks⟩ | hrun := ih hsides.2 rest
      · exact .inl ⟨face :: faces, block :: blocks, rest, by simp, .cons hblock hblocks⟩
      · dsimp only
        exact .inr (by rw [hrun])

theorem ShowFaces.faces_mem (h : ShowFaces dice faces blocks)
    (hsides : ∀ sides ∈ dice, sides ≠ 0) :
    List.Forall₂ (fun face sides => 1 ≤ face ∧ face ≤ sides) faces dice := by
  induction h with
  | nil => exact .nil
  | cons hblock _ ih =>
    rw [List.forall_mem_cons] at hsides
    obtain ⟨_, _, -, -, hword⟩ := hblock
    exact .cons (one_le_of_faceOfWord? hsides.1 hword) (ih hsides.2)

def oneByOne (words : List UInt32) : List (List UInt32) := words.map ([·])

@[simp] theorem flatten_oneByOne (words : List UInt32) : (oneByOne words).flatten = words := by
  induction words with
  | nil => rfl
  | cons word words ih => simpa [oneByOne] using ih

theorem showFace_singleton {word : UInt32} :
    ShowFace sides face [word] ↔ faceOfWord? sides word = some face := by
  constructor
  · rintro ⟨passed, last, hwords, -, hlast⟩
    cases passed with
    | nil => cases hwords; exact hlast
    | cons other passed => simp at hwords
  · exact fun h => ⟨[], word, rfl, by simp, h⟩

theorem showFaces_oneByOne_nil : ShowFaces [] faces (oneByOne words) ↔ faces = [] ∧ words = [] := by
  constructor
  · intro h
    cases words with
    | nil => cases h; exact ⟨rfl, rfl⟩
    | cons word words => cases h
  · rintro ⟨rfl, rfl⟩
    exact .nil

theorem showFaces_oneByOne_cons :
    ShowFaces (sides :: dice) faces (oneByOne words) ↔
      ∃ word others face more, faceOfWord? sides word = some face ∧
        ShowFaces dice more (oneByOne others) ∧ words = word :: others ∧ faces = face :: more := by
  constructor
  · intro h
    cases words with
    | nil => cases h
    | cons word words =>
      cases h with
      | cons hblock hblocks =>
        exact ⟨word, words, _, _, showFace_singleton.mp hblock, hblocks, rfl, rfl⟩
  · rintro ⟨word, others, face, more, hword, hothers, rfl, rfl⟩
    exact .cons (showFace_singleton.mpr hword) hothers

/-- Words that are all accepted show faces one by one, and only these do. -/
theorem exists_showFaces_oneByOne_iff :
    (∃ faces, ShowFaces dice faces (oneByOne words)) ↔
      List.Forall₂ (fun sides word => (faceOfWord? sides word).isSome) dice words := by
  induction dice generalizing words with
  | nil => simp [showFaces_oneByOne_nil]
  | cons sides dice ih =>
    simp only [showFaces_oneByOne_cons, List.forall₂_cons_left_iff, ← ih]
    constructor
    · rintro ⟨_, word, others, face, more, hword, hothers, rfl, rfl⟩
      exact ⟨word, others, Option.isSome_iff_exists.mpr ⟨face, hword⟩, ⟨more, hothers⟩, rfl⟩
    · rintro ⟨word, others, hword, ⟨more, hothers⟩, rfl⟩
      obtain ⟨face, hface⟩ := Option.isSome_iff_exists.mp hword
      exact ⟨_, word, others, face, more, hface, hothers, rfl, rfl⟩

/-- The words for the faces of several dice are chosen die by die: any word for the first goes with
any words for the others. -/
theorem ncard_showFaces_oneByOne (hsides : ∀ sides ∈ dice, sides ≠ 0)
    (h : List.Forall₂ (fun face sides => 1 ≤ face ∧ face ≤ sides) faces dice) :
    {words | ShowFaces dice faces (oneByOne words)}.ncard =
      (dice.map (2 ^ leadingZeros ·)).prod := by
  induction h with
  | nil => simp [showFaces_oneByOne_nil]
  | @cons face sides faces dice hface _ ih =>
    rw [List.forall_mem_cons] at hsides
    have hwords : {words | ShowFaces (sides :: dice) (face :: faces) (oneByOne words)} =
        (fun split : UInt32 × List UInt32 => split.1 :: split.2) ''
          ({word | faceOfWord? sides word = some face} ×ˢ
            {words | ShowFaces dice faces (oneByOne words)}) := by
      ext words
      simp only [Set.mem_ofPred_eq, showFaces_oneByOne_cons, Set.mem_image, Prod.exists,
        Set.mem_prod]
      constructor
      · rintro ⟨word, others, _, _, hword, hothers, rfl, ⟨⟩⟩
        exact ⟨word, others, ⟨hword, hothers⟩, rfl⟩
      · rintro ⟨word, others, ⟨hword, hothers⟩, rfl⟩
        exact ⟨word, others, face, faces, hword, hothers, rfl, rfl⟩
    have hinjective : Function.Injective
        fun split : UInt32 × List UInt32 => split.1 :: split.2 := by
      rintro ⟨word, words⟩ ⟨other, others⟩ heq
      simpa using heq
    rw [hwords, Set.ncard_image_of_injective _ hinjective, Set.ncard_prod,
      ncard_words_of_face hsides.1 hface.1 hface.2, ih hsides.2, List.map_cons, List.prod_cons]

/-- What makes a run that rolls dice fair: it takes a block of words for each die, or fails because
there are too few; and where no word is passed over, all faces are shown equally often. -/
structure RollsFairly (dice : List UInt32)
    (x : RollM DieSource (Except Rejection Evaluation)) : Prop where
  outcome : ∀ words log,
    (∃ e blocks rest log', x.run ⟨.words words, log⟩ = .ok (.ok e) ⟨.words rest, log'⟩ ∧
      words = blocks.flatten ++ rest ∧ ShowFaces dice e.faces blocks ∧
      List.Forall₂ (fun face sides => 1 ≤ face ∧ face ≤ sides) e.faces dice) ∨
    (∃ log', x.run ⟨.words words, log⟩ = .error .wordsExhausted ⟨.words [], log'⟩) ∧
      ∀ faces blocks rest, words = blocks.flatten ++ rest → ¬ShowFaces dice faces blocks
  ncard_words : ∀ faces log,
    List.Forall₂ (fun face sides => 1 ≤ face ∧ face ≤ sides) faces dice →
      {words | List.Forall₂ (fun sides word => (faceOfWord? sides word).isSome) dice words ∧
        ∃ e r, x.run ⟨.words words, log⟩ = .ok (.ok e) r ∧ e.faces = faces}.ncard =
          (dice.map (2 ^ leadingZeros ·)).prod

variable {x : RollM DieSource (Except Rejection Evaluation)}

/-- A run that rolls dice comes out with the faces that the blocks show. -/
theorem ShowFaces.run_of_rolls (h : ShowFaces dice faces blocks)
    (hsides : ∀ sides ∈ dice, sides ≠ 0)
    (hx : DieSource.roller.Rolls dice (fun out faces => ∃ e, out = .ok e ∧ e.faces = faces) x)
    (rest : List UInt32) (log : List Record) :
    ∃ e log', x.run ⟨.words (blocks.flatten ++ rest), log⟩ = .ok (.ok e) ⟨.words rest, log'⟩ ∧
      e.faces = faces := by
  have hdraw := h.run_draw hsides rest
  obtain ⟨_, ⟨_, log'⟩, hrun, ⟨e, rfl, hfaces⟩, rfl⟩ :=
    hx.exists_run_ok (r := ⟨.words (blocks.flatten ++ rest), log⟩) hdraw
  exact ⟨e, log', hrun, hfaces⟩

/-- An action that rolls certain dice and gives back their faces rolls them fairly. -/
theorem rollsFairly_of_rolls (hsides : ∀ sides ∈ dice, sides ≠ 0)
    (hx : DieSource.roller.Rolls dice (fun out faces => ∃ e, out = .ok e ∧ e.faces = faces) x) :
    RollsFairly dice x := by
  constructor
  · intro words log
    obtain ⟨faces, blocks, rest, rfl, hblocks⟩ | hdraw := blocks_or_run_draw hsides words
    · obtain ⟨e, log', hrun, rfl⟩ := hblocks.run_of_rolls hsides hx rest log
      exact .inl ⟨e, blocks, rest, log', hrun, rfl, hblocks, hblocks.faces_mem hsides⟩
    · obtain ⟨⟨_, log'⟩, hrun, rfl⟩ := hx.exists_run_error (r := ⟨.words words, log⟩) hdraw
      refine .inr ⟨⟨log', hrun⟩, ?_⟩
      rintro faces blocks rest rfl hblocks
      cases hdraw.symm.trans (hblocks.run_draw hsides rest)
  · intro faces log hfaces
    rw [← ncard_showFaces_oneByOne hsides hfaces]
    congr 1
    ext words
    simp only [Set.mem_ofPred_eq, ← exists_showFaces_oneByOne_iff]
    have hone : ∀ shown, ShowFaces dice shown (oneByOne words) →
        ∃ e log', x.run ⟨.words words, log⟩ = .ok (.ok e) ⟨.words [], log'⟩ ∧
          e.faces = shown := by
      intro shown hshown
      simpa using hshown.run_of_rolls hsides hx [] log
    constructor
    · rintro ⟨⟨shown, hshown⟩, e, r, hrun, rfl⟩
      obtain ⟨e', log', hrun', rfl⟩ := hone shown hshown
      cases hrun.symm.trans hrun'
      exact hshown
    · intro hshown
      obtain ⟨e, log', hrun, hfaces⟩ := hone faces hshown
      exact ⟨⟨faces, hshown⟩, e, _, hrun, hfaces⟩

/-- On random words every die is fair, and so are all dice of an accepted expression together, which
are rolled once in the normal mode and twice in the others. -/
theorem words_roll_fairly :
    (∀ sides, 1 ≤ sides → IsFairDie sides) ∧
      (∀ mode : Mode, mode.rollCount = if mode = .normal then 1 else 2) ∧
      ∀ limits expression mode terms, Terms.parse limits expression = .ok terms →
        (mode.dieSides terms).length = mode.rollCount * terms.diceCount.toNat ∧
          RollsFairly (mode.dieSides terms) (DieSource.roller.evaluate limits mode expression) := by
  refine ⟨?_, Mode.rollCount_eq, ?_⟩
  · intro sides hsides
    refine isFairDie ?_
    rintro rfl
    exact absurd hsides (by decide)
  · intro limits expression mode terms hparse
    have hwithin := Terms.within_of_parse hparse
    constructor
    · rw [mode.length_dieSides, hwithin.toNat_diceCount]
    · refine rollsFairly_of_rolls ?_ (DieSource.roller.rolls_evaluate hparse)
      rintro sides hsides rfl
      exact absurd (hwithin.dieSides_bounds hsides).1 (by decide)

/-- Two dice with six sides show a three and then a five on as many words as any other faces. -/
theorem words_roll_fairly_two_dice :
    (1 : UInt32) ≤ 6 ∧ leadingZeros 6 = 29 ∧
      {word | faceOfWord? 6 word = some 3}.ncard = 2 ^ 29 ∧
      Terms.parse .default "2d6-1" = .ok ⟨[.dice .plus 2 6 "2d6", .constant .minus 1 "-1"]⟩ ∧
      {words | List.Forall₂ (fun sides word => (faceOfWord? sides word).isSome) [6, 6] words ∧
        ∃ e r, (DieSource.roller.evaluate .default .normal "2d6-1").run ⟨.words words, []⟩ =
          .ok (.ok e) r ∧ e.faces = [3, 5]}.ncard = 2 ^ 58 := by
  obtain ⟨hdie, -, hdice⟩ := words_roll_fairly
  have hzeros : leadingZeros 6 = 29 := by decide
  have hparse : Terms.parse .default "2d6-1" =
      .ok ⟨[.dice .plus 2 6 "2d6", .constant .minus 1 "-1"]⟩ := by decide
  have hsix : (1 : UInt32) ≤ 6 := by decide
  have hface := (hdie 6 hsix).ncard_words 3 (by decide) (by decide)
  have hfaces := (hdice _ _ .normal _ hparse).2.ncard_words [3, 5] [] (by decide)
  rw [hzeros] at hface
  refine ⟨hsix, hzeros, hface, hparse, hfaces.trans ?_⟩
  show ([6, 6].map (2 ^ leadingZeros ·)).prod = 2 ^ 58
  simp [hzeros]

end FairDice
