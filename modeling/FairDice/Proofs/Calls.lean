import FairDice.Proofs.Rolling

/-!
# Calls that share a supply of prepared faces

However dice, terms and evaluations are rolled on such a supply in turn, with
rejected expressions and questions in between, the faces go out one by one in
their order, and each call takes as many as it has dice. Looking ahead takes
none. A call that needs more faces than are left takes all of them and fails.
-/
namespace FairDice

/-- A roller that hands out prepared faces, each of them once, and may be asked if any is left. -/
structure FaceSupply (σ : Type) where
  roller : Roller σ
  canRoll : σ → Bool × σ
  /-- The state has these faces left. -/
  Holds : σ → List UInt32 → Prop
  rollDie_cons {s : σ} {face : UInt32} {rest : List UInt32} (sides : UInt32) :
    Holds s (face :: rest) → ∃ s', (roller.rollDie sides).run s = .ok face s' ∧ Holds s' rest
  rollDie_nil {s : σ} (sides : UInt32) :
    Holds s [] → ∃ s', (roller.rollDie sides).run s = .error .facesExhausted s' ∧ Holds s' []
  canRoll_eq {s : σ} {rest : List UInt32} :
    Holds s rest → ∃ s', canRoll s = (!rest.isEmpty, s') ∧ Holds s' rest

def DieSource.supply : FaceSupply DieSource where
  roller := roller
  canRoll s := (s.canRoll?.getD false, s)
  Holds s rest := s = .faces rest
  rollDie_cons := by
    rintro s face rest sides rfl
    exact ⟨_, rfl, rfl⟩
  rollDie_nil := by
    rintro s sides rfl
    exact ⟨_, rfl, rfl⟩
  canRoll_eq := by
    rintro s rest rfl
    exact ⟨_, rfl, rfl⟩

/-- Faces behind a place to look ahead: once looked at, the next face, or that there is none, waits
in front of the others. -/
structure Lookahead where
  seen : Option (Option UInt32)
  behind : List UInt32
  deriving DecidableEq, Repr

namespace Lookahead

def ofFaces (faces : List UInt32) : Lookahead := ⟨none, faces⟩

/-- The next face, which stays. -/
def peek (s : Lookahead) : Option UInt32 × Lookahead :=
  match s.seen with
  | some face? => (face?, s)
  | none => (s.behind.head?, ⟨some s.behind.head?, s.behind.tail⟩)

/-- The next face, which is gone then. -/
def next (s : Lookahead) : Option UInt32 × Lookahead :=
  match s.seen with
  | some face? => (face?, ⟨none, s.behind⟩)
  | none => (s.behind.head?, ⟨none, s.behind.tail⟩)

def rollDie : EStateM Fault Lookahead UInt32 := fun s =>
  match s.next with
  | (some face, s) => .ok face s
  | (none, s) => .error .facesExhausted s

/-- What was looked at comes first, and after the last face there is no other. -/
inductive Holds : Lookahead → List UInt32 → Prop
  | unseen (faces : List UInt32) : Holds ⟨none, faces⟩ faces
  | seen (face : UInt32) (rest : List UInt32) : Holds ⟨some (some face), rest⟩ (face :: rest)
  | ended : Holds ⟨some none, []⟩ []

def supply : FaceSupply Lookahead where
  roller := ⟨fun _ => rollDie⟩
  canRoll s := (s.peek.1.isSome, s.peek.2)
  Holds := Holds
  rollDie_cons := by
    intro s face rest sides h
    cases h <;> exact ⟨_, rfl, .unseen rest⟩
  rollDie_nil := by
    intro s sides h
    cases h <;> exact ⟨_, rfl, .unseen []⟩
  canRoll_eq := by
    intro s rest h
    cases h with
    | unseen =>
      cases rest with
      | nil => exact ⟨_, rfl, .ended⟩
      | cons face rest => exact ⟨_, rfl, .seen face rest⟩
    | seen face rest => exact ⟨_, rfl, .seen face rest⟩
    | ended => exact ⟨_, rfl, .ended⟩

end Lookahead

structure ParsedTerms extends Terms where
  parsed : ∃ limits input, Terms.parse limits input = .ok toTerms

/-- Parsed terms count their dice without saturation. -/
theorem ParsedTerms.toNat_diceCount (terms : ParsedTerms) :
    terms.diceCount.toNat = terms.dieSides.length := by
  obtain ⟨limits, input, hparse⟩ := terms.parsed
  exact (Terms.within_of_parse hparse).toNat_diceCount

inductive Call where
  | rollDie (sides : UInt32)
  | roll (terms : ParsedTerms)
  | rollEvaluation (label : String) (mode : Mode) (terms : ParsedTerms)
  | evaluate (limits : Limits) (mode : Mode) (expression : String)
  | canRoll

inductive Reply where
  | face (face : UInt32)
  | rolled (set : RollSet)
  | evaluated (evaluation : Evaluation)
  | rejected (rejection : Rejection)
  | canRoll (answer : Bool)

namespace Reply

def ofOutcome : Except Rejection Evaluation → Reply
  | .ok evaluation => .evaluated evaluation
  | .error rejection => .rejected rejection

def faces : Reply → List UInt32
  | .face shown => [shown]
  | .rolled set => set.faces
  | .evaluated evaluation => evaluation.faces
  | .rejected _ | .canRoll _ => []

end Reply

namespace Call

def need : Call → Nat
  | .rollDie _ => 1
  | .roll terms => terms.diceCount.toNat
  | .rollEvaluation _ mode terms => mode.rollCount * terms.diceCount.toNat
  | .evaluate limits mode expression =>
    match Terms.parse limits expression with
    | .ok terms => mode.rollCount * terms.diceCount.toNat
    | .error _ => 0
  | .canRoll => 0

/-- The reply is one to the call, where `rest` is left before it. -/
def Gets (rest : List UInt32) : Call → Reply → Prop
  | .rollDie _, .face _ | .roll _, .rolled _ | .rollEvaluation .., .evaluated _ => True
  | .evaluate limits _ expression, .evaluated _ =>
    ∃ terms, Terms.parse limits expression = .ok terms
  | .evaluate limits _ expression, .rejected rejection =>
    Terms.parse limits expression = .error rejection
  | .canRoll, .canRoll answer => answer = true ↔ rest ≠ []
  | _, _ => False

end Call

namespace FaceSupply

variable {α σ : Type} (q : FaceSupply σ)

def answer : Call → RollM σ Reply
  | .rollDie sides => .face <$> q.roller.face sides
  | .roll terms => .rolled <$> q.roller.roll terms.toTerms
  | .rollEvaluation label mode terms =>
    .evaluated <$> q.roller.evaluateTerms label mode terms.toTerms
  | .evaluate limits mode expression =>
    .ofOutcome <$> q.roller.evaluate limits mode expression
  | .canRoll => fun r =>
    .ok (.canRoll (q.canRoll r.state).1) { r with state := (q.canRoll r.state).2 }

/-- What a run that takes `n` faces does where `rest` is left. -/
structure Serves (n : Nat) (shows : α → List UInt32 → Prop) (x : RollM σ α) (r : Recorded σ)
    (rest : List UInt32) : Prop where
  enough : n ≤ rest.length →
    ∃ a r', x.run r = .ok a r' ∧ shows a (rest.take n) ∧ q.Holds r'.state (rest.drop n)
  short : rest.length < n →
    ∃ r', x.run r = .error .facesExhausted r' ∧ q.Holds r'.state []

variable {q} {s : σ} {r r' : Recorded σ} {rest : List UInt32}

/-- Dice in a row show the faces that are left, one each. -/
theorem run_draw (h : q.Holds s rest) (dice : List UInt32) :
    (dice.length ≤ rest.length →
      ∃ s', (q.roller.draw dice).run s = .ok (rest.take dice.length) s' ∧
        q.Holds s' (rest.drop dice.length)) ∧
    (rest.length < dice.length →
      ∃ s', (q.roller.draw dice).run s = .error .facesExhausted s' ∧ q.Holds s' []) := by
  induction dice generalizing s rest with
  | nil => exact ⟨fun _ => ⟨s, rfl, h⟩, fun hlt => absurd hlt (Nat.not_lt_zero _)⟩
  | cons sides dice ih =>
    rw [Roller.draw_cons]
    simp only [EStateM.run_bind, List.length_cons]
    cases rest with
    | nil =>
      obtain ⟨s', hdie, hs'⟩ := q.rollDie_nil sides h
      rw [hdie]
      exact ⟨fun hle => absurd hle (Nat.not_succ_le_zero _), fun _ => ⟨s', rfl, hs'⟩⟩
    | cons face rest =>
      obtain ⟨middle, hdie, hmiddle⟩ := q.rollDie_cons sides h
      obtain ⟨henough, hshort⟩ := ih hmiddle
      rw [hdie]
      dsimp only
      constructor
      · intro hle
        obtain ⟨s', hdraw, hs'⟩ := henough (Nat.le_of_succ_le_succ hle)
        exact ⟨s', by rw [hdraw]; rfl, hs'⟩
      · intro hlt
        obtain ⟨s', hdraw, hs'⟩ := hshort (Nat.lt_of_succ_lt_succ hlt)
        exact ⟨s', by rw [hdraw], hs'⟩

/-- A run that rolls dice takes one face for each of them. -/
theorem serves_of_rolls {dice : List UInt32} {shows : α → List UInt32 → Prop} {x : RollM σ α}
    (hx : q.roller.Rolls dice shows x) (h : q.Holds r.state rest) :
    q.Serves dice.length shows x r rest := by
  obtain ⟨henough, hshort⟩ := run_draw h dice
  constructor
  · intro hle
    obtain ⟨s', hdraw, hs'⟩ := henough hle
    obtain ⟨a, r', hrun, ha, rfl⟩ := hx.exists_run_ok hdraw
    exact ⟨a, r', hrun, ha, hs'⟩
  · intro hlt
    obtain ⟨s', hdraw, hs'⟩ := hshort hlt
    obtain ⟨r', hrun, rfl⟩ := hx.exists_run_error hdraw
    exact ⟨r', hrun, hs'⟩

/-- What comes of any call, as long as it has the faces that it needs and otherwise. -/
theorem serves_answer (h : q.Holds r.state rest) (call : Call) :
    q.Serves call.need (fun reply faces => reply.faces = faces ∧ call.Gets rest reply)
      (q.answer call) r rest := by
  cases call with
  | rollDie sides =>
    exact serves_of_rolls ((q.roller.rolls_face sides).map fun _ _ h => ⟨h, trivial⟩) h
  | roll terms =>
    rw [Call.need, terms.toNat_diceCount]
    exact serves_of_rolls ((q.roller.rolls_roll terms.toTerms).map fun _ _ h => ⟨h, trivial⟩) h
  | rollEvaluation label mode terms =>
    rw [Call.need, terms.toNat_diceCount, ← mode.length_dieSides]
    exact serves_of_rolls
      ((q.roller.rolls_evaluateTerms label mode terms.toTerms).map fun _ _ h => ⟨h, trivial⟩) h
  | evaluate limits mode expression =>
    rw [Call.need]
    cases hparse : Terms.parse limits expression with
    | ok terms =>
      dsimp only
      rw [(Terms.within_of_parse hparse).toNat_diceCount, ← mode.length_dieSides]
      refine serves_of_rolls ((q.roller.rolls_evaluate hparse).map ?_) h
      rintro _ faces ⟨e, rfl, hfaces⟩
      exact ⟨hfaces, terms, hparse⟩
    | error rejection =>
      refine ⟨fun _ => ?_, fun hlt => absurd hlt (Nat.not_lt_zero _)⟩
      have hrun : (q.answer (.evaluate limits mode expression)).run r =
          .ok (.rejected rejection)
            { r with log := r.log ++ [.rejected expression rejection] } := by
        rw [answer, EStateM.run_map, q.roller.run_evaluate_of_error hparse]
        rfl
      exact ⟨_, _, hrun, ⟨rfl, hparse⟩, h⟩
  | canRoll =>
    refine ⟨fun _ => ?_, fun hlt => absurd hlt (Nat.not_lt_zero _)⟩
    obtain ⟨s', hcanRoll, hs'⟩ := q.canRoll_eq h
    have hrun : (q.answer .canRoll).run r =
        .ok (.canRoll (q.canRoll r.state).1) { r with state := (q.canRoll r.state).2 } := rfl
    rw [hcanRoll] at hrun
    refine ⟨_, _, hrun, ⟨rfl, ?_⟩, hs'⟩
    cases rest <;> simp [Call.Gets]

/-- As long as all calls are answered, the faces in the replies are the first that there were. -/
theorem split_of_run {calls : List Call} {replies : List Reply} (h : q.Holds r.state rest)
    (hrun : (calls.mapM q.answer).run r = .ok replies r') :
    ∃ left, rest = replies.flatMap Reply.faces ++ left ∧ q.Holds r'.state left ∧
      List.Forall₂ (fun call reply => reply.faces.length = call.need) calls replies := by
  induction calls generalizing r rest replies with
  | nil =>
    obtain ⟨rfl, rfl⟩ := run_pure_eq_ok_iff.mp hrun
    exact ⟨rest, rfl, h, .nil⟩
  | cons call calls ih =>
    rw [List.mapM_cons] at hrun
    obtain ⟨reply, middle, hreply, hrun⟩ := run_bind_eq_ok_iff.mp hrun
    obtain ⟨replies, last, hreplies, hrun⟩ := run_bind_eq_ok_iff.mp hrun
    obtain ⟨rfl, rfl⟩ := run_pure_eq_ok_iff.mp hrun
    obtain ⟨henough, hshort⟩ := serves_answer h call
    have hle : call.need ≤ rest.length := by
      by_contra hlt
      obtain ⟨_, hfault, -⟩ := hshort (Nat.lt_of_not_le hlt)
      cases hreply.symm.trans hfault
    obtain ⟨_, _, hanswer, ⟨hfaces, -⟩, hmiddle⟩ := henough hle
    cases hreply.symm.trans hanswer
    obtain ⟨left, hrest, hleft, hall⟩ := ih hmiddle hreplies
    refine ⟨left, ?_, hleft, .cons ?_ hall⟩
    · rw [List.flatMap_cons, hfaces, List.append_assoc, ← hrest, List.take_append_drop]
    · rw [hfaces, List.length_take, Nat.min_eq_left hle]

/-- Faces go out in order: after any calls that were all answered, and with any call that comes
next. -/
def KeepsOrder (q : FaceSupply σ) (s : σ) (faces : List UInt32) : Prop :=
  ∀ log calls replies r, (calls.mapM q.answer).run ⟨s, log⟩ = .ok replies r →
    ∃ rest, faces = replies.flatMap Reply.faces ++ rest ∧ q.Holds r.state rest ∧
      List.Forall₂ (fun call reply => reply.faces.length = call.need) calls replies ∧
      ∀ call, q.Serves call.need (fun reply faces => reply.faces = faces ∧ call.Gets rest reply)
        (q.answer call) r rest

/-- A supply that holds the faces gives them out in order. -/
theorem keepsOrder (q : FaceSupply σ) {s : σ} {faces : List UInt32} (h : q.Holds s faces) :
    q.KeepsOrder s faces := by
  intro log calls replies r hrun
  have hstart : q.Holds (⟨s, log⟩ : Recorded σ).state faces := h
  obtain ⟨rest, hfaces, hrest, hall⟩ := split_of_run hstart hrun
  exact ⟨rest, hfaces, hrest, hall, serves_answer hrest⟩

end FaceSupply

/-- Prepared faces go out in order, whether or not they are looked at ahead, and a call that they do
not suffice for says that they are finished. An evaluation takes its dice once in the normal mode and
twice in the others. -/
theorem prepared_faces_keep_order (faces : List UInt32) :
    DieSource.supply.KeepsOrder (.faces faces) faces ∧
      Lookahead.supply.KeepsOrder (.ofFaces faces) faces ∧
      (∀ mode : Mode, mode.rollCount = if mode = .normal then 1 else 2) ∧
      Fault.facesExhausted.message = "iterator is finished" :=
  ⟨DieSource.supply.keepsOrder rfl, Lookahead.supply.keepsOrder (.unseen faces),
    Mode.rollCount_eq, rfl⟩

end FairDice
