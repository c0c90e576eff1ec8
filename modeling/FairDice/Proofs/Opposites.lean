import FairDice.Proofs.Flipping
import FairDice.Proofs.Rolling

/-!
# Rolling the opposite of an expression

The opposite asks a roller for the same dice, shows the same faces, and comes to
the opposite total in each term and each roll set; so what advantage keeps of the
one, disadvantage keeps of the other.
-/
namespace FairDice

theorem Sign.factor_flip (sign : Sign) : sign.flip.factor = -sign.factor := by
  cases sign <;> rfl

/-- What is read off related items is the same if it is the same for each two of them. -/
theorem map_eq_of_forall₂ {α β γ : Type} {p : α → β → Prop} {f : α → γ} {g : β → γ} {as : List α}
    {bs : List β} (h : List.Forall₂ p as bs) (hread : ∀ {a b}, p a b → g b = f a) :
    bs.map g = as.map f := by
  induction h with
  | nil => rfl
  | cons hab _ ih => rw [List.map_cons, List.map_cons, hread hab, ih]

/-- The same faces, and the opposite total. -/
structure TermRoll.Opposes (roll other : TermRoll) : Prop where
  term_eq : other.term = oppositeRaw roll.term
  rolls_eq : other.rolls = roll.rolls
  total_eq : other.total.toInt = -roll.total.toInt

structure RollSet.Opposes (set other : RollSet) : Prop where
  terms : List.Forall₂ TermRoll.Opposes set.terms other.terms
  total_eq : other.total.toInt = -set.total.toInt

/-- The same faces, and opposite totals in each roll set. -/
structure Evaluation.Opposes (e other : Evaluation) : Prop where
  sets : List.Forall₂ RollSet.Opposes e.rollSets other.rollSets
  faces_eq : other.faces = e.faces

/-- The roll set at the same place is kept, with the opposite total. -/
structure Evaluation.KeepsOpposite (e other : Evaluation) : Prop where
  index_eq : other.selectedIndex = e.selectedIndex
  total_eq : other.total.toInt = -e.total.toInt

theorem RollSet.Opposes.faces_eq {set other : RollSet} (h : set.Opposes other) :
    other.faces = set.faces := by
  rw [faces, faces, List.flatMap_def, List.flatMap_def,
    map_eq_of_forall₂ h.terms TermRoll.Opposes.rolls_eq]

theorem Terms.dieSides_opposite (terms : Terms) : terms.opposite.dieSides = terms.dieSides := by
  rw [dieSides, dieSides, opposite, List.flatMap_map]
  congr 1
  funext term
  cases term <;> rfl

/-- The mode only decides how often the terms are rolled. -/
theorem Mode.dieSides_opposite {mode other : Mode} (h : mode.rollCount = other.rollCount)
    (terms : Terms) : other.dieSides terms.opposite = mode.dieSides terms := by
  simp [dieSides, h, List.flatMap_replicate, Terms.dieSides_opposite]

namespace Roller

variable {σ : Type} {roller : Roller σ} {terms : Terms} {s s' s'' : σ}

/-- From one state, opposite terms roll the same faces to opposite totals. -/
theorem RollsTerm.opposes {term : Term} {roll other : TermRoll}
    (h : roller.RollsTerm term s roll s') (h' : roller.RollsTerm term.opposite s other s'') :
    roll.Opposes other ∧ s' = s'' := by
  cases h with
  | constant htotal =>
    cases h' with
    | constant htotal' =>
      rw [Sign.factor_flip, Int.neg_mul, ← htotal] at htotal'
      exact ⟨⟨rfl, rfl, htotal'⟩, rfl⟩
  | dice hsteps htotal =>
    cases h' with
    | dice hsteps' htotal' =>
      obtain ⟨rfl, rfl⟩ := hsteps.unique hsteps' DrawsFace.unique
      rw [Sign.factor_flip, Int.neg_mul, ← htotal] at htotal'
      exact ⟨⟨rfl, rfl, htotal'⟩, rfl⟩

/-- From one state, opposite terms roll opposite sets and leave the roller alike. -/
theorem RollsSet.opposes {set other : RollSet} (h : roller.RollsSet terms s set s')
    (h' : roller.RollsSet terms.opposite s other s'') : set.Opposes other ∧ s' = s'' := by
  obtain ⟨hrolls, rfl⟩ := h.steps.related h'.steps RollsTerm.opposes
  refine ⟨⟨hrolls, ?_⟩, rfl⟩
  rw [h.total_eq, h'.total_eq, map_eq_of_forall₂ hrolls TermRoll.Opposes.total_eq, List.sum_neg,
    List.map_map]
  rfl

variable {expression expression' : String} {mode other : Mode} {e e' : Evaluation}

/-- Opposite evaluations have opposite sets throughout. -/
theorem Evaluates.opposes (h : roller.Evaluates expression mode terms s e s')
    (h' : roller.Evaluates expression' other terms.opposite s e' s'')
    (hcount : mode.rollCount = other.rollCount) : e.Opposes e' := by
  have hsteps' := h'.steps
  rw [← hcount, ← List.map_replicate] at hsteps'
  obtain ⟨hsets, -⟩ := h.steps.related hsteps' RollsSet.opposes
  refine ⟨hsets, ?_⟩
  rw [Evaluation.faces, Evaluation.faces, List.flatMap_def, List.flatMap_def,
    map_eq_of_forall₂ hsets RollSet.Opposes.faces_eq]

/-- What the one mode keeps is at the same place as what the opposite mode keeps of the opposite. -/
theorem Evaluates.keepsOpposite (h : roller.Evaluates expression mode terms s e s')
    (h' : roller.Evaluates expression' mode.opposite terms.opposite s e' s'') :
    e.KeepsOpposite e' := by
  have hsets := (h.opposes h' mode.rollCount_opposite.symm).sets
  have htotals : e'.rollSets.map (fun set => set.total.toInt) =
      (e.rollSets.map fun set => set.total.toInt).map (- ·) := by
    rw [List.map_map]
    exact map_eq_of_forall₂ hsets RollSet.Opposes.total_eq
  have hselects := h.selects.neg
  rw [← htotals] at hselects
  have hindex := h'.selectedIndex_eq hselects
  refine ⟨UInt64.toNat_inj.mp hindex, ?_⟩
  have hat := h'.getElem?_selectedIndex
  rw [hindex, htotals, List.getElem?_map, h.getElem?_selectedIndex] at hat
  exact (Option.some.inj hat).symm

end Roller

/-- From each state of the roller, whatever is in the log, the run `y` answers where `x` does, as it
should, or fails where `x` does, for the same reason; and it leaves the roller in the same state. -/
structure RunsAlike {σ : Type} (shows : Evaluation → Evaluation → Prop)
    (x y : RollM σ (Except Rejection Evaluation)) : Prop where
  answers : ∀ s log log' e r, x.run ⟨s, log⟩ = .ok (.ok e) r →
    ∃ e' log'', y.run ⟨s, log'⟩ = .ok (.ok e') ⟨r.state, log''⟩ ∧ shows e e'
  fails : ∀ s log log' fault r, x.run ⟨s, log⟩ = .error fault r →
    ∃ log'', y.run ⟨s, log'⟩ = .error fault ⟨r.state, log''⟩

namespace Roller

variable {σ : Type} {roller : Roller σ} {limits : Limits} {terms : Terms} {mode other : Mode}
  {expression expression' : String}

theorem runsAlike_evaluate {shows : Evaluation → Evaluation → Prop}
    (hparse : Terms.parse limits expression = .ok terms)
    (hparse' : Terms.parse limits expression' = .ok terms.opposite)
    (hcount : mode.rollCount = other.rollCount)
    (hshows : ∀ {s e s' e' s''}, roller.Evaluates expression mode terms s e s' →
      roller.Evaluates expression' other terms.opposite s e' s'' → shows e e') :
    RunsAlike shows (roller.evaluate limits mode expression)
      (roller.evaluate limits other expression') := by
  have hdice := Mode.dieSides_opposite hcount terms
  have hrolls : roller.Rolls (mode.dieSides terms) _ _ := roller.rolls_evaluate hparse
  constructor
  · intro s log log' e r hrun
    obtain ⟨faces, hdraw, -⟩ := hrolls.exists_draw hrun
    obtain ⟨terms', hterms, hevaluates⟩ := evaluates_of_run_evaluate hrun
    obtain rfl := Except.ok.inj (hparse.symm.trans hterms)
    rw [← hdice] at hdraw
    obtain ⟨e', log'', hrun', hevaluates'⟩ := exists_run_evaluate hparse' hdraw log'
    exact ⟨e', log'', hrun', hshows hevaluates hevaluates'⟩
  · intro s log log' fault r hrun
    have hdraw := hrolls.draw_eq_error hrun
    rw [← hdice] at hdraw
    obtain ⟨⟨_, log''⟩, hrun', rfl⟩ :=
      (roller.rolls_evaluate hparse').exists_run_error (r := ⟨s, log'⟩) hdraw
    exact ⟨log'', hrun'⟩

end Roller

/-- An expression and its opposite are accepted or rejected together, for the same reason. Accepted,
they are rolled alike: from each state of a roller both show the same faces or fail alike, with
opposite totals; and advantage keeps of the one what disadvantage keeps of the other. -/
theorem opposites_roll_alike {σ : Type} (roller : Roller σ) (limits : Limits) (input : String)
    (h : stripBlanks input.toList ∈ Grammar.expression) :
    ((∃ terms, Terms.parse limits (oppositeOf input) = .ok terms) ↔
      ∃ terms, Terms.parse limits input = .ok terms) ∧
    (∀ rejection, Terms.parse limits input = .error rejection →
      ∃ other, Terms.parse limits (oppositeOf input) = .error other ∧
        rejection.AgreesWith other) ∧
    ∀ terms, Terms.parse limits input = .ok terms →
      Terms.parse limits (oppositeOf input) = .ok terms.opposite ∧
      (∀ mode other : Mode, mode.rollCount = other.rollCount →
        RunsAlike Evaluation.Opposes (roller.evaluate limits mode input)
          (roller.evaluate limits other (oppositeOf input))) ∧
      ∀ mode : Mode, RunsAlike Evaluation.KeepsOpposite (roller.evaluate limits mode input)
        (roller.evaluate limits mode.opposite (oppositeOf input)) := by
  refine ⟨Terms.exists_parse_oppositeOf_iff h, fun _ => Terms.exists_parse_oppositeOf h, ?_⟩
  intro terms hparse
  have hopposite := Terms.parse_oppositeOf hparse
  refine ⟨hopposite, ?_, ?_⟩
  · intro mode other hcount
    exact Roller.runsAlike_evaluate hparse hopposite hcount fun he he' => he.opposes he' hcount
  · intro mode
    exact Roller.runsAlike_evaluate hparse hopposite mode.rollCount_opposite.symm
      fun he he' => he.keepsOpposite he'

/-- The second roll set is kept of both, and one die less than they have makes both too many. -/
theorem opposites_roll_alike_second_kept :
    let input := " 2d6 - 3"
    let terms : Terms := ⟨[.dice .plus 2 6 "2d6", .constant .minus 3 "-3"]⟩
    let start : Recorded DieSource := ⟨.faces [1, 2, 6, 1, 4], []⟩
    stripBlanks input.toList ∈ Grammar.expression ∧ Terms.parse .default input = .ok terms ∧
      Terms.parse .default "-2d6+3" =
        .ok ⟨[.dice .minus 2 6 "-2d6", .constant .plus 3 "+3"]⟩ ∧
      (∃ rejection, Terms.parse (Limits.default.withMaxDice 1) "-2d6+3" = .error rejection ∧
        rejection.kind = .diceCountExceedsLimit ∧ rejection.excess? = some (2, 1)) ∧
      ∃ e log e' log',
        (DieSource.roller.evaluate .default .advantage input).run start =
          .ok (.ok e) ⟨.faces [4], log⟩ ∧
        (DieSource.roller.evaluate .default .disadvantage "-2d6+3").run start =
          .ok (.ok e') ⟨.faces [4], log'⟩ ∧
        e.selectedIndex = 1 ∧ e.total.toInt = 4 ∧ e'.selectedIndex = 1 ∧ e'.total.toInt = -4 := by
  intro input terms start
  have hparse : Terms.parse .default input = .ok terms := by decide
  have hreject : Terms.parse (Limits.default.withMaxDice 1) input =
      .error (.diceCountExceedsLimit "2d6" 2 1 ⟨0, 3⟩) := by decide
  have hgrammar : stripBlanks input.toList ∈ Grammar.expression := by
    obtain ⟨ws, hws, -⟩ := Terms.ofExpression_eq_ok_iff.mp hparse
    exact Grammar.mem_expression_iff.mpr ⟨ws, hws⟩
  have htext : oppositeOf input = "-2d6+3" := by decide
  obtain ⟨-, -, haccepted⟩ := opposites_roll_alike DieSource.roller .default input hgrammar
  obtain ⟨-, hrejected, -⟩ :=
    opposites_roll_alike DieSource.roller (Limits.default.withMaxDice 1) input hgrammar
  obtain ⟨hopposite, -, hkeeps⟩ := haccepted terms hparse
  obtain ⟨rejection, hrejection, hagrees⟩ := hrejected _ hreject
  rw [htext] at hopposite hrejection
  have hrun : ∃ e log, (DieSource.roller.evaluate .default .advantage input).run start =
      .ok (.ok e) ⟨.faces [4], log⟩ ∧ e.selectedIndex = 1 ∧ e.total.toInt = 4 :=
    ⟨_, _, DieSource.roller.run_evaluate_of_ok hparse start, by decide, by decide⟩
  obtain ⟨e, log, hrun, hindex, htotal⟩ := hrun
  obtain ⟨e', log', hrun', hkept⟩ := (hkeeps .advantage).answers _ _ [] _ _ hrun
  rw [htext] at hrun'
  refine ⟨hgrammar, hparse, hopposite, ⟨rejection, hrejection, hagrees.kind_eq, hagrees.excess_eq⟩,
    e, log, e', log', hrun, hrun', hindex, htotal, ?_, ?_⟩
  · rw [hkept.index_eq, hindex]
  · rw [hkept.total_eq, htotal]

end FairDice
