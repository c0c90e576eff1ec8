import FairDice.Proofs.Evaluating

/-!
# The dice that a run rolls

Terms, roll sets and evaluations all come down to a row of dice, rolled one after
the other: a run comes out with the faces that this row shows, in its order, or
with the fault of the first die of it that fails. What it comes to does not
depend on the log.
-/
namespace FairDice

/-- The sides of the dice that a term rolls, die by die. -/
def Term.dieSides : Term → List UInt32
  | .dice _ count sides _ => List.replicate count.toNat sides
  | .constant .. => []

def Terms.dieSides (terms : Terms) : List UInt32 := terms.toList.flatMap Term.dieSides

/-- The sides of the dice of an evaluation, die by die. -/
def Mode.dieSides (mode : Mode) (terms : Terms) : List UInt32 :=
  (List.replicate mode.rollCount terms).flatMap Terms.dieSides

def RollSet.faces (set : RollSet) : List UInt32 := set.terms.flatMap TermRoll.rolls

def Evaluation.faces (e : Evaluation) : List UInt32 := e.rollSets.flatMap RollSet.faces

theorem Term.length_dieSides (term : Term) : term.dieSides.length = term.diceCount.toNat := by
  cases term <;> simp [dieSides, diceCount]

theorem Terms.length_dieSides (terms : Terms) :
    terms.dieSides.length = (terms.toList.map (·.diceCount.toNat)).sum := by
  rw [dieSides, List.length_flatMap]
  exact congrArg List.sum (List.map_congr_left fun term _ => term.length_dieSides)

theorem Mode.length_dieSides (mode : Mode) (terms : Terms) :
    (mode.dieSides terms).length = mode.rollCount * terms.dieSides.length := by
  simp [dieSides, List.length_flatMap]

/-- Adding up counts in 32 bits is exact as long as their sum fits. -/
theorem Terms.toNat_diceCount_eq_sum {terms : Terms}
    (h : (terms.toList.map (·.diceCount.toNat)).sum < UInt32.size) :
    terms.diceCount.toNat = (terms.toList.map (·.diceCount.toNat)).sum := by
  obtain ⟨list⟩ := terms
  simp only [diceCount] at h ⊢
  induction list with
  | nil => rfl
  | cons term list ih =>
    rw [List.map_cons, List.sum_cons] at h ⊢
    have hrest := ih (Nat.lt_of_le_of_lt (Nat.le_add_left _ _) h)
    rw [List.foldr_cons, UInt32.toNat_add, hrest]
    exact Nat.mod_eq_of_lt h

variable {limits : Limits} {terms : Terms}

/-- Accepted terms have at most a hundred dice. -/
theorem Terms.Within.sum_diceCount_le (h : terms.Within limits) :
    (terms.toList.map (·.diceCount.toNat)).sum ≤ 100 :=
  h.dice_le.trans limits.maxDice_le

theorem Terms.Within.toNat_diceCount (h : terms.Within limits) :
    terms.diceCount.toNat = terms.dieSides.length := by
  have hsize : 100 < UInt32.size := by decide
  rw [terms.length_dieSides]
  exact toNat_diceCount_eq_sum (Nat.lt_of_le_of_lt h.sum_diceCount_le hsize)

/-- Every die of an evaluation has sides, and not too many. -/
theorem Terms.Within.dieSides_bounds (h : terms.Within limits) {mode : Mode} {sides : UInt32}
    (hsides : sides ∈ mode.dieSides terms) : 1 ≤ sides.toNat ∧ sides.toNat ≤ limits.maxSides := by
  obtain ⟨copy, hcopy, hsides⟩ := List.mem_flatMap.mp hsides
  obtain ⟨term, hterm, hsides⟩ := List.mem_flatMap.mp hsides
  rw [List.eq_of_mem_replicate hcopy] at hterm
  have hwithin := h.within term hterm
  cases term with
  | dice sign count n raw =>
    rw [List.eq_of_mem_replicate hsides]
    exact ⟨hwithin.2.2.1, hwithin.2.2.2⟩
  | constant sign value raw => exact absurd hsides List.not_mem_nil

namespace Roller

section

variable {α β σ : Type} {roller : Roller σ}

def draw (roller : Roller σ) (dice : List UInt32) : EStateM Fault σ (List UInt32) :=
  dice.mapM roller.rollDie

@[simp] theorem draw_nil (roller : Roller σ) : roller.draw [] = pure [] := rfl

theorem draw_cons (roller : Roller σ) (sides : UInt32) (dice : List UInt32) :
    roller.draw (sides :: dice) = do
      let face ← roller.rollDie sides
      return face :: (← roller.draw dice) := List.mapM_cons ..

/-- Dice are drawn in order, the back ones from where the front ones left off. -/
theorem draw_append (roller : Roller σ) (dice more : List UInt32) :
    roller.draw (dice ++ more) = do
      let faces ← roller.draw dice
      return faces ++ (← roller.draw more) := List.mapM_append ..

theorem exists_of_run_draw_append {dice more faces : List UInt32} {s s' : σ}
    (h : (roller.draw (dice ++ more)).run s = .ok faces s') :
    ∃ front back middle, (roller.draw dice).run s = .ok front middle ∧
      (roller.draw more).run middle = .ok back s' := by
  rw [draw_append] at h
  obtain ⟨front, middle, hfront, h⟩ := run_bind_eq_ok_iff.mp h
  obtain ⟨back, last, hback, h⟩ := run_bind_eq_ok_iff.mp h
  obtain ⟨-, rfl⟩ := run_pure_eq_ok_iff.mp h
  exact ⟨front, back, middle, hfront, hback⟩

/-- Dice that show their faces one after the other are drawn with these faces. -/
theorem run_draw_of_steps {dice faces : List UInt32} {s s' : σ}
    (h : Steps roller.DrawsFace dice s faces s') : (roller.draw dice).run s = .ok faces s' := by
  induction h with
  | nil => rfl
  | cons hface _ ih =>
    rw [draw_cons]
    refine run_bind_eq_ok_iff.mpr ⟨_, _, hface, ?_⟩
    exact run_bind_eq_ok_iff.mpr ⟨_, _, ih, rfl⟩

/-- The run rolls the dice, and no others: it comes out as they do. -/
def Rolls (roller : Roller σ) (dice : List UInt32) (shows : α → List UInt32 → Prop)
    (x : RollM σ α) : Prop :=
  ∀ r, match (roller.draw dice).run r.state with
    | .ok faces s => ∃ a r', x.run r = .ok a r' ∧ shows a faces ∧ r'.state = s
    | .error fault s => ∃ r', x.run r = .error fault r' ∧ r'.state = s

variable {dice more : List UInt32} {shows : α → List UInt32 → Prop} {x : RollM σ α}

section

variable {r r' : Recorded σ} {faces : List UInt32} {fault : Fault} {s : σ}

/-- An action succeeds wherever its dice can be drawn, and shows their faces. -/
theorem Rolls.exists_run_ok (h : roller.Rolls dice shows x)
    (hdraw : (roller.draw dice).run r.state = .ok faces s) :
    ∃ a r', x.run r = .ok a r' ∧ shows a faces ∧ r'.state = s := by
  have hrun := h r
  rwa [hdraw] at hrun

/-- An action fails wherever its dice do, with their fault. -/
theorem Rolls.exists_run_error (h : roller.Rolls dice shows x)
    (hdraw : (roller.draw dice).run r.state = .error fault s) :
    ∃ r', x.run r = .error fault r' ∧ r'.state = s := by
  have hrun := h r
  rwa [hdraw] at hrun

/-- What a run came out with, its dice came out with. -/
theorem Rolls.exists_draw {a : α} (h : roller.Rolls dice shows x) (hrun : x.run r = .ok a r') :
    ∃ faces, (roller.draw dice).run r.state = .ok faces r'.state ∧ shows a faces := by
  cases hdraw : (roller.draw dice).run r.state with
  | ok faces s =>
    obtain ⟨b, last, hrun', hb, rfl⟩ := h.exists_run_ok hdraw
    cases hrun.symm.trans hrun'
    exact ⟨faces, rfl, hb⟩
  | error fault s =>
    obtain ⟨last, hrun', -⟩ := h.exists_run_error hdraw
    cases hrun.symm.trans hrun'

/-- An action fails only where its dice do. -/
theorem Rolls.draw_eq_error (h : roller.Rolls dice shows x) (hrun : x.run r = .error fault r') :
    (roller.draw dice).run r.state = .error fault r'.state := by
  cases hdraw : (roller.draw dice).run r.state with
  | ok faces s =>
    obtain ⟨b, last, hrun', -⟩ := h.exists_run_ok hdraw
    cases hrun.symm.trans hrun'
  | error fault s =>
    obtain ⟨last, hrun', rfl⟩ := h.exists_run_error hdraw
    cases hrun.symm.trans hrun'
    rfl

end

theorem Rolls.pure {a : α} (h : shows a []) : roller.Rolls [] shows (pure a : RollM σ α) :=
  fun r => ⟨a, r, rfl, h, rfl⟩

/-- One run after the other rolls the dice of both. -/
theorem Rolls.bind {showsMore : α → β → List UInt32 → Prop} {showsAll : β → List UInt32 → Prop}
    {f : α → RollM σ β} (hx : roller.Rolls dice shows x)
    (hf : ∀ a, roller.Rolls more (showsMore a) (f a))
    (h : ∀ a faces b others, shows a faces → showsMore a b others → showsAll b (faces ++ others)) :
    roller.Rolls (dice ++ more) showsAll (x >>= f) := by
  intro r
  rw [draw_append]
  simp only [EStateM.run_bind]
  cases hdraw : (roller.draw dice).run r.state with
  | error fault s =>
    obtain ⟨r', hrun, rfl⟩ := hx.exists_run_error hdraw
    exact ⟨r', by rw [hrun], rfl⟩
  | ok faces s =>
    obtain ⟨a, middle, hrun, ha, rfl⟩ := hx.exists_run_ok hdraw
    rw [hrun]
    dsimp only
    cases hmore : (roller.draw more).run middle.state with
    | error fault s => exact (hf a).exists_run_error hmore
    | ok others s =>
      obtain ⟨b, r', hrun', hb, rfl⟩ := (hf a).exists_run_ok hmore
      exact ⟨b, r', hrun', h a faces b others ha hb, rfl⟩

theorem Rolls.map {showsAll : β → List UInt32 → Prop} {f : α → β} (hx : roller.Rolls dice shows x)
    (h : ∀ a faces, shows a faces → showsAll (f a) faces) :
    roller.Rolls dice showsAll (f <$> x) := by
  intro r
  rw [EStateM.run_map]
  cases hdraw : (roller.draw dice).run r.state with
  | error fault s =>
    obtain ⟨r', hrun, hs⟩ := hx.exists_run_error hdraw
    exact ⟨r', by rw [hrun]; rfl, hs⟩
  | ok faces s =>
    obtain ⟨a, r', hrun, ha, hs⟩ := hx.exists_run_ok hdraw
    exact ⟨f a, r', by rw [hrun]; rfl, h a faces ha, hs⟩

/-- The log takes no dice. -/
theorem Rolls.writeLog (entry : Record) :
    roller.Rolls [] (fun _ faces => faces = []) (writeLog entry : RollM σ Unit) :=
  fun r => ⟨(), _, run_writeLog entry r, rfl, rfl⟩

/-- What is done for all items in turn rolls the dice of each in turn. -/
theorem Rolls.mapM {f : α → RollM σ β} {diceOf : α → List UInt32} {facesOf : β → List UInt32}
    (h : ∀ a, roller.Rolls (diceOf a) (fun b faces => facesOf b = faces) (f a)) (as : List α) :
    roller.Rolls (as.flatMap diceOf) (fun bs faces => bs.flatMap facesOf = faces) (as.mapM f) := by
  induction as with
  | nil => exact .pure rfl
  | cons a as ih =>
    have hrest : ∀ b, roller.Rolls (as.flatMap diceOf)
        (fun bs faces => ∃ rest, bs = b :: rest ∧ rest.flatMap facesOf = faces)
        ((b :: ·) <$> as.mapM f) := fun b => ih.map fun rest faces hrest => ⟨rest, rfl, hrest⟩
    simp only [List.mapM_cons, List.flatMap_cons, bind_pure_comp]
    refine (h a).bind hrest ?_
    rintro b faces bs others rfl ⟨rest, rfl, rfl⟩
    rw [List.flatMap_cons]

end

variable {σ : Type} (roller : Roller σ)

theorem rolls_face (sides : UInt32) :
    roller.Rolls [sides] (fun face faces => [face] = faces) (roller.face sides) := by
  intro r
  rw [draw_cons, run_face]
  simp only [EStateM.run_bind]
  cases (roller.rollDie sides).run r.state with
  | error fault s => exact ⟨_, rfl, rfl⟩
  | ok face s => exact ⟨face, _, rfl, rfl, rfl⟩

theorem rolls_faces (sides : UInt32) (n : Nat) :
    roller.Rolls (List.replicate n sides) Eq (roller.faces sides n) := by
  have h := Rolls.mapM roller.rolls_face (List.replicate n sides)
  simp only [List.flatMap_singleton'] at h
  rw [faces_eq_mapM]
  exact h

theorem rolls_rollTerm (term : Term) :
    roller.Rolls term.dieSides (fun roll faces => roll.rolls = faces) (roller.rollTerm term) := by
  cases term with
  | constant sign value raw => exact .pure rfl
  | dice sign count sides raw =>
    have hlog (faces : List UInt32) : roller.Rolls []
        (fun roll more => roll = TermRoll.ofFaces sign faces raw ∧ more = [])
        (do writeLog (.rolled raw faces); return .ofFaces sign faces raw) := by
      rw [bind_pure_comp]
      exact (Rolls.writeLog _).map fun _ _ h => ⟨rfl, h⟩
    rw [Term.dieSides, ← List.append_nil (List.replicate _ _)]
    refine (roller.rolls_faces sides count.toNat).bind hlog ?_
    rintro faces _ roll _ rfl ⟨rfl, rfl⟩
    exact (List.append_nil _).symm

/-- A roll set rolls the dice of its terms in order, and holds their faces. -/
theorem rolls_roll (terms : Terms) :
    roller.Rolls terms.dieSides (fun set faces => set.faces = faces) (roller.roll terms) := by
  rw [roll, bind_pure_comp]
  exact (Rolls.mapM roller.rolls_rollTerm terms.toList).map fun _ _ h => h

/-- An evaluation rolls the dice of its mode in order, and holds their faces. -/
theorem rolls_evaluateTerms (expression : String) (mode : Mode) (terms : Terms) :
    roller.Rolls (mode.dieSides terms) (fun e faces => e.faces = faces)
      (roller.evaluateTerms expression mode terms) := by
  have hlog (sets : List RollSet) : roller.Rolls []
      (fun e more => e = Evaluation.ofRollSets expression mode sets ∧ more = [])
      (do
        writeLog (Evaluation.ofRollSets expression mode sets).summary
        return .ofRollSets expression mode sets) := by
    rw [bind_pure_comp]
    exact (Rolls.writeLog _).map fun _ _ h => ⟨rfl, h⟩
  rw [evaluateTerms, rollTimes_eq_mapM, ← List.append_nil (mode.dieSides terms)]
  refine (Rolls.mapM roller.rolls_roll (List.replicate mode.rollCount terms)).bind hlog ?_
  rintro sets _ e _ rfl ⟨rfl, rfl⟩
  exact (List.append_nil _).symm

variable {expression : String} {limits : Limits} {mode : Mode}

/-- A rejected expression is answered without a die. -/
theorem run_evaluate_of_error {rejection : Rejection}
    (h : Terms.parse limits expression = .error rejection) (r : Recorded σ) :
    (roller.evaluate limits mode expression).run r =
      .ok (.error rejection) { r with log := r.log ++ [.rejected expression rejection] } := by
  have hparse := run_parseRecorded limits expression r
  rw [h] at hparse
  rw [evaluate, EStateM.run_bind, hparse]
  rfl

/-- An accepted expression goes on to the evaluation of its terms. -/
theorem run_evaluate_of_ok {terms : Terms} (h : Terms.parse limits expression = .ok terms)
    (r : Recorded σ) :
    (roller.evaluate limits mode expression).run r =
      (Except.ok <$> roller.evaluateTerms expression mode terms).run
        { r with log := r.log ++ [.ofParse expression (.ok terms)] } := by
  have hparse := run_parseRecorded limits expression r
  rw [h] at hparse
  rw [evaluate, EStateM.run_bind, hparse, ← bind_pure_comp]

/-- Only a text that is rejected when it is read is rejected when it is evaluated. -/
theorem parse_of_run_evaluate_error {rejection : Rejection} {r r' : Recorded σ}
    (h : (roller.evaluate limits mode expression).run r = .ok (.error rejection) r') :
    Terms.parse limits expression = .error rejection := by
  cases hparse : Terms.parse limits expression with
  | error other =>
    rw [roller.run_evaluate_of_error hparse] at h
    cases h
    rfl
  | ok terms =>
    rw [roller.run_evaluate_of_ok hparse] at h
    obtain ⟨e, -, he⟩ := run_map_eq_ok_iff.mp h
    cases he

variable {roller} in
/-- A roller that answers for dice is never stuck in an evaluation. -/
theorem AnswersDice.answers_evaluate (h : roller.AnswersDice) (limits : Limits) (mode : Mode)
    (expression : String) : Answers (roller.evaluate limits mode expression) := by
  intro r
  cases hparse : Terms.parse limits expression with
  | error rejection => exact ⟨_, _, roller.run_evaluate_of_error hparse r⟩
  | ok terms =>
    rw [roller.run_evaluate_of_ok hparse]
    exact (h.answers_evaluateTerms (Terms.within_of_parse hparse) expression mode).map Except.ok _

/-- An accepted expression rolls the dice of its terms as often as the mode asks for. -/
theorem rolls_evaluate {terms : Terms} (h : Terms.parse limits expression = .ok terms) :
    roller.Rolls (mode.dieSides terms) (fun out faces => ∃ e, out = .ok e ∧ e.faces = faces)
      (roller.evaluate limits mode expression) := by
  have hterms : roller.Rolls (mode.dieSides terms)
      (fun (out : Except Rejection Evaluation) faces => ∃ e, out = .ok e ∧ e.faces = faces)
      (Except.ok <$> roller.evaluateTerms expression mode terms) :=
    (roller.rolls_evaluateTerms expression mode terms).map fun e _ he => ⟨e, rfl, he⟩
  intro r
  rw [roller.run_evaluate_of_ok h]
  exact hterms { r with log := r.log ++ [.ofParse expression (.ok terms)] }

variable {roller} {terms : Terms} {faces : List UInt32} {s s' : σ}

/-- Where its dice can be rolled, so can the terms, with one outcome whatever is in the log. -/
theorem exists_run_roll (hterms : terms.Within limits)
    (hdraw : (roller.draw terms.dieSides).run s = .ok faces s') :
    ∃ set, roller.RollsSet terms s set s' ∧
      ∀ log, ∃ log', (roller.roll terms).run ⟨s, log⟩ = .ok set ⟨s', log'⟩ := by
  have hrun : ∀ log, ∃ set r', (roller.roll terms).run ⟨s, log⟩ = .ok set r' ∧ r'.state = s' := by
    intro log
    obtain ⟨set, r', hset, -, hstate⟩ :=
      (roller.rolls_roll terms).exists_run_ok (r := ⟨s, log⟩) hdraw
    exact ⟨set, r', hset, hstate⟩
  obtain ⟨set, r', hset, rfl⟩ := hrun []
  have hrolls : roller.RollsSet terms s set r'.state := rollsSet_of_run hterms hset
  refine ⟨set, hrolls, fun log => ?_⟩
  obtain ⟨other, last, hother, hstate⟩ := hrun log
  have hrolls' : roller.RollsSet terms s other last.state := rollsSet_of_run hterms hother
  obtain ⟨rfl, -⟩ := hrolls.unique hrolls'
  exact ⟨last.log, by rw [hother, ← hstate]⟩

theorem exists_run_evaluate (hparse : Terms.parse limits expression = .ok terms)
    (hdraw : (roller.draw (mode.dieSides terms)).run s = .ok faces s') (log : List Record) :
    ∃ e log', (roller.evaluate limits mode expression).run ⟨s, log⟩ = .ok (.ok e) ⟨s', log'⟩ ∧
      roller.Evaluates expression mode terms s e s' := by
  obtain ⟨_, r', hrun, ⟨e, rfl, -⟩, rfl⟩ :=
    (roller.rolls_evaluate hparse).exists_run_ok (r := ⟨s, log⟩) hdraw
  obtain ⟨terms', hparse', hevaluates⟩ := evaluates_of_run_evaluate hrun
  obtain rfl := Except.ok.inj (hparse.symm.trans hparse')
  exact ⟨e, r'.log, hrun, hevaluates⟩

end Roller
end FairDice
