import FairDice.Proofs.Rolling

/-!
# A roller that notes what it is asked

Noting changes nothing else, so a run with such a roller shows which dice the
same run asks for without it.
-/
namespace FairDice

variable {α β σ : Type}

/-- The roller with a list of the sides of all dice that it was asked for. -/
def Roller.noting (roller : Roller σ) : Roller (σ × List UInt32) where
  rollDie sides := fun (s, asked) =>
    match (roller.rollDie sides).run s with
    | .ok face s' => .ok face (s', asked ++ [sides])
    | .error fault s' => .error fault (s', asked ++ [sides])

/-- Where the run `x` answers, `y` answers the same and notes these dice. -/
def Notes (dice : List UInt32) (x : RollM σ α) (y : RollM (σ × List UInt32) α) : Prop :=
  ∀ r a r' asked, x.run r = .ok a r' →
    y.run ⟨(r.state, asked), r.log⟩ = .ok a ⟨(r'.state, asked ++ dice), r'.log⟩

namespace Notes

variable {dice more : List UInt32} {x : RollM σ α} {y : RollM (σ × List UInt32) α}

theorem pure (a : α) : Notes [] (pure a : RollM σ α) (pure a) := by
  intro r a r' asked h
  obtain ⟨rfl, rfl⟩ := run_pure_eq_ok_iff.mp h
  rw [List.append_nil]
  rfl

theorem writeLog (entry : Record) : Notes [] (writeLog entry : RollM σ Unit) (writeLog entry) := by
  intro r a r' asked h
  rw [run_writeLog] at h ⊢
  cases h
  rw [List.append_nil]

/-- Two actions in a row note the dice of both, in order. -/
theorem bind {f : α → RollM σ β} {g : α → RollM (σ × List UInt32) β} (hx : Notes dice x y)
    (hf : ∀ a, Notes more (f a) (g a)) : Notes (dice ++ more) (x >>= f) (y >>= g) := by
  intro r b r' asked h
  obtain ⟨a, middle, ha, hb⟩ := run_bind_eq_ok_iff.mp h
  rw [← List.append_assoc]
  exact run_bind_eq_ok_iff.mpr ⟨a, _, hx _ _ _ asked ha, hf a _ _ _ _ hb⟩

theorem mapM {f : α → RollM σ β} {g : α → RollM (σ × List UInt32) β} {diceOf : α → List UInt32}
    (h : ∀ a, Notes (diceOf a) (f a) (g a)) (as : List α) :
    Notes (as.flatMap diceOf) (as.mapM f) (as.mapM g) := by
  induction as with
  | nil => exact pure []
  | cons a as ih =>
    rw [List.mapM_cons, List.mapM_cons, List.flatMap_cons, ← List.append_nil (as.flatMap diceOf)]
    exact (h a).bind fun b => ih.bind fun bs => pure (b :: bs)

end Notes

namespace Roller

variable (roller : Roller σ)

/-- A face notes its die. -/
theorem notes_face (sides : UInt32) :
    Notes [sides] (roller.face sides) (roller.noting.face sides) := by
  intro r face r' asked h
  rw [run_face] at h ⊢
  cases hdie : (roller.rollDie sides).run r.state with
  | error fault s =>
    rw [hdie] at h
    cases h
  | ok shown s =>
    rw [hdie] at h
    cases h
    have hnote : (roller.noting.rollDie sides).run (r.state, asked) =
        .ok face (s, asked ++ [sides]) := by
      show (match (roller.rollDie sides).run r.state with
        | .ok face s' => EStateM.Result.ok face (s', asked ++ [sides])
        | .error fault s' => .error fault (s', asked ++ [sides])) = _
      rw [hdie]
    rw [hnote]

theorem notes_rollTerm (term : Term) :
    Notes term.dieSides (roller.rollTerm term) (roller.noting.rollTerm term) := by
  cases term with
  | constant sign value raw => exact .pure _
  | dice sign count sides raw =>
    have hfaces := Notes.mapM roller.notes_face (List.replicate count.toNat sides)
    rw [List.flatMap_singleton', ← faces_eq_mapM, ← faces_eq_mapM] at hfaces
    rw [Term.dieSides, ← List.append_nil (List.replicate _ _)]
    exact hfaces.bind fun _ => (Notes.writeLog _).bind fun _ => .pure _

theorem notes_roll (terms : Terms) :
    Notes terms.dieSides (roller.roll terms) (roller.noting.roll terms) := by
  rw [Terms.dieSides, ← List.append_nil (terms.toList.flatMap _)]
  exact (Notes.mapM roller.notes_rollTerm _).bind fun _ => .pure _

/-- An evaluation notes the dice of its mode, in order, and comes out as without the notes. -/
theorem notes_evaluateTerms (expression : String) (mode : Mode) (terms : Terms) :
    Notes (mode.dieSides terms) (roller.evaluateTerms expression mode terms)
      (roller.noting.evaluateTerms expression mode terms) := by
  rw [evaluateTerms, evaluateTerms, rollTimes_eq_mapM, rollTimes_eq_mapM, Mode.dieSides,
    ← List.append_nil (List.flatMap _ _)]
  exact (Notes.mapM roller.notes_roll _).bind fun _ => (Notes.writeLog _).bind fun _ => .pure _

end Roller
end FairDice
