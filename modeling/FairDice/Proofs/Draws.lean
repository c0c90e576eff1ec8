import FairDice.Evaluation
import Mathlib.Data.List.Forall2

/-!
# What a run draws from its roller

Whatever is rolled, it is rolled in steps, each from the state that the one
before it left: dice one after the other, terms from left to right, sets in turn.
A roller that always answers never makes a run fail.
-/
namespace FairDice

section

variable {α β σ : Type}

/-- Steps one after another, each from the state that the one before it left. -/
inductive Steps (step : α → σ → β → σ → Prop) : List α → σ → List β → σ → Prop
  | nil (s : σ) : Steps step [] s [] s
  | cons {a : α} {as : List α} {b : β} {bs : List β} {s middle s' : σ} :
    step a s b middle → Steps step as middle bs s' → Steps step (a :: as) s (b :: bs) s'

theorem Steps.length_eq {step : α → σ → β → σ → Prop} {as : List α} {bs : List β} {s s' : σ}
    (h : Steps step as s bs s') : bs.length = as.length := by
  induction h with
  | nil => rfl
  | cons _ _ ih => rw [List.length_cons, List.length_cons, ih]

/-- What one step says of its outcome holds for all outcomes. -/
theorem Steps.forall_outcomes {step : α → σ → β → σ → Prop} {p : β → Prop} {as : List α}
    {bs : List β} {s s' : σ} (h : Steps step as s bs s')
    (hstep : ∀ a ∈ as, ∀ s b s', step a s b s' → p b) : ∀ b ∈ bs, p b := by
  induction h with
  | nil => simp
  | cons hfirst _ ih =>
    rw [List.forall_mem_cons] at hstep ⊢
    exact ⟨hstep.1 _ _ _ hfirst, ih hstep.2⟩

/-- What one step says of its outcome holds for all steps with their outcomes. -/
theorem Steps.forall₂ {step : α → σ → β → σ → Prop} {p : α → β → Prop} {as : List α}
    {bs : List β} {s s' : σ} (h : Steps step as s bs s')
    (hstep : ∀ a ∈ as, ∀ s b s', step a s b s' → p a b) : List.Forall₂ p as bs := by
  induction h with
  | nil => exact .nil
  | cons hfirst _ ih =>
    rw [List.forall_mem_cons] at hstep
    exact .cons (hstep.1 _ _ _ hfirst) (ih hstep.2)

/-- Where the steps for two items have related outcomes and leave the same state, so do steps one
after another. -/
theorem Steps.related {α' γ : Type} {step : α → σ → β → σ → Prop} {step' : α' → σ → γ → σ → Prop}
    {f : α → α'} {p : β → γ → Prop} {as : List α} {bs : List β} {cs : List γ} {s s' s'' : σ}
    (h : Steps step as s bs s') (h' : Steps step' (as.map f) s cs s'')
    (hstep : ∀ {a s b s' c s''}, step a s b s' → step' (f a) s c s'' → p b c ∧ s' = s'') :
    List.Forall₂ p bs cs ∧ s' = s'' := by
  induction h generalizing cs with
  | nil =>
    cases h'
    exact ⟨.nil, rfl⟩
  | cons hfirst _ ih =>
    cases h' with
    | cons hfirst' hrest' =>
      obtain ⟨hb, rfl⟩ := hstep hfirst hfirst'
      obtain ⟨hbs, rfl⟩ := ih hrest'
      exact ⟨.cons hb hbs, rfl⟩

/-- Where a step has one outcome only, steps one after another have one as well. -/
theorem Steps.unique {step : α → σ → β → σ → Prop} {as : List α} {bs cs : List β} {s s' s'' : σ}
    (h : Steps step as s bs s') (h' : Steps step as s cs s'')
    (hstep : ∀ {a s b s' c s''}, step a s b s' → step a s c s'' → b = c ∧ s' = s'') :
    bs = cs ∧ s' = s'' := by
  rw [← List.map_id as] at h'
  obtain ⟨hbs, hs⟩ := h.related h' hstep
  rw [List.forall₂_eq_eq_eq] at hbs
  exact ⟨hbs, hs⟩

section

variable {ε : Type} {r r' : σ}

theorem run_pure_eq_ok_iff {a b : α} :
    (pure a : EStateM ε σ α).run r = .ok b r' ↔ a = b ∧ r = r' := by
  rw [EStateM.run_pure]
  simp

/-- Two actions in a row succeed when both do, the second from where the first left off. -/
theorem run_bind_eq_ok_iff {x : EStateM ε σ α} {f : α → EStateM ε σ β} {b : β} :
    (x >>= f).run r = .ok b r' ↔
      ∃ a middle, x.run r = .ok a middle ∧ (f a).run middle = .ok b r' := by
  rw [EStateM.run_bind]
  cases x.run r with
  | ok a middle => simp [and_assoc]
  | error fault middle => simp

/-- Two actions in a row fail when the first does, or the second behind it. -/
theorem run_bind_eq_error_iff {x : EStateM ε σ α} {f : α → EStateM ε σ β} {fault : ε} :
    (x >>= f).run r = .error fault r' ↔
      x.run r = .error fault r' ∨
        ∃ a middle, x.run r = .ok a middle ∧ (f a).run middle = .error fault r' := by
  rw [EStateM.run_bind]
  cases x.run r with
  | ok a middle => simp [and_assoc]
  | error fault middle => simp

theorem run_map_eq_ok_iff {x : EStateM ε σ α} {f : α → β} {b : β} :
    (f <$> x).run r = .ok b r' ↔ ∃ a, x.run r = .ok a r' ∧ f a = b := by
  rw [← bind_pure_comp, run_bind_eq_ok_iff]
  constructor
  · rintro ⟨a, middle, ha, hb⟩
    obtain ⟨rfl, rfl⟩ := run_pure_eq_ok_iff.mp hb
    exact ⟨a, ha, rfl⟩
  · rintro ⟨a, ha, rfl⟩
    exact ⟨a, r', ha, rfl⟩

theorem run_map_eq_error_iff {x : EStateM ε σ α} {f : α → β} {fault : ε} :
    (f <$> x).run r = .error fault r' ↔ x.run r = .error fault r' := by
  rw [← bind_pure_comp, run_bind_eq_error_iff]
  constructor
  · rintro (h | ⟨a, middle, -, h⟩)
    · exact h
    · cases h
  · exact .inl

end

variable {r r' : Recorded σ}

/-- A run over a list takes its steps in the order of the list. -/
theorem steps_of_run_mapM {step : α → σ → β → σ → Prop} {f : α → RollM σ β} {as : List α}
    {bs : List β}
    (hstep : ∀ a ∈ as, ∀ r b r', (f a).run r = .ok b r' → step a r.state b r'.state)
    (h : (as.mapM f).run r = .ok bs r') : Steps step as r.state bs r'.state := by
  induction as generalizing r bs with
  | nil =>
    obtain ⟨rfl, rfl⟩ := run_pure_eq_ok_iff.mp h
    exact .nil _
  | cons a as ih =>
    rw [List.forall_mem_cons] at hstep
    rw [List.mapM_cons] at h
    obtain ⟨b, middle, hb, h⟩ := run_bind_eq_ok_iff.mp h
    obtain ⟨bs, last, hbs, h⟩ := run_bind_eq_ok_iff.mp h
    obtain ⟨rfl, rfl⟩ := run_pure_eq_ok_iff.mp h
    exact .cons (hstep.1 _ _ _ hb) (ih hstep.2 hbs)

/-- A run over a list that fails does so at one of the list, and gets through those before it. -/
theorem exists_of_run_mapM_eq_error {f : α → RollM σ β} {as : List α} {fault : Fault}
    (h : (as.mapM f).run r = .error fault r') :
    ∃ front a back bs middle, as = front ++ a :: back ∧ (front.mapM f).run r = .ok bs middle ∧
      (f a).run middle = .error fault r' := by
  induction as generalizing r with
  | nil => cases h
  | cons a as ih =>
    rw [List.mapM_cons] at h
    rcases run_bind_eq_error_iff.mp h with ha | ⟨b, middle, hb, h⟩
    · exact ⟨[], a, as, [], r, rfl, rfl, ha⟩
    rcases run_bind_eq_error_iff.mp h with has | ⟨bs, last, -, h⟩
    · obtain ⟨front, a', back, bs, last, rfl, hfront, ha'⟩ := ih has
      refine ⟨a :: front, a', back, b :: bs, last, rfl, ?_, ha'⟩
      rw [List.mapM_cons]
      refine run_bind_eq_ok_iff.mpr ⟨b, middle, hb, ?_⟩
      exact run_bind_eq_ok_iff.mpr ⟨bs, last, hfront, rfl⟩
    · cases h

/-- A run that never fails, whatever it starts from. -/
def Answers (x : RollM σ α) : Prop := ∀ r, ∃ a r', x.run r = .ok a r'

theorem Answers.pure (a : α) : Answers (pure a : RollM σ α) := fun r => ⟨a, r, rfl⟩

theorem Answers.bind {x : RollM σ α} {f : α → RollM σ β} (hx : Answers x)
    (hf : ∀ a, Answers (f a)) : Answers (x >>= f) := by
  intro r
  obtain ⟨a, middle, ha⟩ := hx r
  obtain ⟨b, r', hb⟩ := hf a middle
  exact ⟨b, r', run_bind_eq_ok_iff.mpr ⟨a, middle, ha, hb⟩⟩

theorem Answers.map {x : RollM σ α} (f : α → β) (hx : Answers x) : Answers (f <$> x) := by
  rw [← bind_pure_comp]
  exact hx.bind fun a => .pure (f a)

/-- A list is gone through to the end when each of its elements is answered. -/
theorem Answers.mapM {f : α → RollM σ β} {as : List α} (hf : ∀ a ∈ as, Answers (f a)) :
    Answers (as.mapM f) := by
  induction as with
  | nil => exact .pure []
  | cons a as ih =>
    rw [List.forall_mem_cons] at hf
    rw [List.mapM_cons]
    exact .bind hf.1 fun b => .bind (ih hf.2) fun bs => .pure (b :: bs)

theorem Answers.writeLog (entry : Record) : Answers (writeLog entry : RollM σ Unit) :=
  fun r => ⟨(), _, run_writeLog entry r⟩

end

namespace Roller

variable {σ : Type} {roller : Roller σ} {r r' : Recorded σ}

/-- The roller answers a die from the state `s` with the face, and goes on from `s'`. -/
def DrawsFace (roller : Roller σ) (sides : UInt32) (s : σ) (face : UInt32) (s' : σ) : Prop :=
  (roller.rollDie sides).run s = .ok face s'

/-- A roller has one face to give in each of its states. -/
theorem DrawsFace.unique {sides face other : UInt32} {s s' s'' : σ}
    (h : roller.DrawsFace sides s face s') (h' : roller.DrawsFace sides s other s'') :
    face = other ∧ s' = s'' := by
  cases h.symm.trans h'
  exact ⟨rfl, rfl⟩

/-- A roller that answers whatever number of sides it is asked for, also none. -/
def IsTotal (roller : Roller σ) : Prop :=
  ∀ sides s, ∃ face s', roller.DrawsFace sides s face s'

/-- A roller that answers every die with a side; without one it may fail. -/
def AnswersDice (roller : Roller σ) : Prop :=
  ∀ sides s, 1 ≤ sides.toNat → ∃ face s', roller.DrawsFace sides s face s'

theorem IsTotal.answersDice (h : roller.IsTotal) : roller.AnswersDice :=
  fun sides s _ => h sides s

/-- A roller whose faces are all on the die that it was asked for. -/
def KeepsToDice (roller : Roller σ) : Prop :=
  ∀ sides s face s', 1 ≤ sides.toNat → roller.DrawsFace sides s face s' →
    1 ≤ face.toNat ∧ face.toNat ≤ sides.toNat

theorem run_face_eq_ok_iff {sides face : UInt32} :
    (roller.face sides).run r = .ok face r' ↔
      roller.DrawsFace sides r.state face r'.state ∧ r'.log = r.log := by
  rw [run_face, DrawsFace]
  cases (roller.rollDie sides).run r.state with
  | ok f s =>
    obtain ⟨state, log⟩ := r'
    simp [and_assoc, eq_comm]
  | error fault s => simp

theorem faces_eq_mapM (roller : Roller σ) (sides : UInt32) (n : Nat) :
    roller.faces sides n = (List.replicate n sides).mapM roller.face := by
  induction n with
  | zero => rfl
  | succ n ih => rw [faces, ih, List.replicate_succ, List.mapM_cons]

theorem rollTimes_eq_mapM (roller : Roller σ) (terms : Terms) (n : Nat) :
    roller.rollTimes terms n = (List.replicate n terms).mapM roller.roll := by
  induction n with
  | zero => rfl
  | succ n ih => rw [rollTimes, ih, List.replicate_succ, List.mapM_cons]

theorem steps_of_run_faces {sides : UInt32} {n : Nat} {faces : List UInt32}
    (h : (roller.faces sides n).run r = .ok faces r') :
    Steps roller.DrawsFace (List.replicate n sides) r.state faces r'.state := by
  rw [faces_eq_mapM] at h
  exact steps_of_run_mapM (fun _ _ _ _ _ h => (run_face_eq_ok_iff.mp h).1) h

theorem AnswersDice.answers_face (h : roller.AnswersDice) {sides : UInt32}
    (hsides : 1 ≤ sides.toNat) : Answers (roller.face sides) := by
  intro r
  obtain ⟨face, s, hface⟩ := h sides r.state hsides
  exact ⟨face, ⟨s, r.log⟩, run_face_eq_ok_iff.mpr ⟨hface, rfl⟩⟩

end Roller
end FairDice
