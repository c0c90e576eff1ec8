import FairDice.Proofs.Evaluating
import FairDice.Session

/-!
# What a session keeps

A step that is answered does one thing to the table and nothing else; a step that
fails only draws faces and writes the log. So nothing that is on the table gets
lost, and all that is kept there came about by the rules, after any steps from an
empty table.
-/
namespace FairDice

section

variable {α β ε σ : Type} {rel : σ → σ → Prop}

/-- Whether it answers or fails, a run leaves a state that is related to the one it starts from. -/
structure Leads (rel : σ → σ → Prop) (x : EStateM ε σ α) : Prop where
  answers : ∀ {s a s'}, x.run s = .ok a s' → rel s s'
  fails : ∀ {s e s'}, x.run s = .error e s' → rel s s'

theorem Leads.pure (hrefl : ∀ s, rel s s) (a : α) : Leads rel (pure a : EStateM ε σ α) where
  answers h := by
    obtain ⟨-, rfl⟩ := run_pure_eq_ok_iff.mp h
    exact hrefl _
  fails h := nomatch h

theorem Leads.throw (hrefl : ∀ s, rel s s) (e : ε) : Leads rel (throw e : EStateM ε σ α) where
  answers h := nomatch h
  fails h := by
    cases h
    exact hrefl _

theorem Leads.get (hrefl : ∀ s, rel s s) : Leads rel (get : EStateM ε σ σ) where
  answers h := by
    cases h
    exact hrefl _
  fails h := nomatch h

/-- Where a run fails, it leaves a state that is related to the one it starts from. -/
def FailsIn (rel : σ → σ → Prop) (x : EStateM ε σ α) : Prop :=
  ∀ s e s', x.run s = .error e s' → rel s s'

theorem FailsIn.of_answers {x : EStateM ε σ α} (h : ∀ s, ∃ a s', x.run s = .ok a s') :
    FailsIn rel x := by
  intro s e s' herror
  obtain ⟨a, s'', hok⟩ := h s
  cases hok.symm.trans herror

/-- A failure behind an action that leads somewhere is a failure there too. -/
theorem Leads.failsIn_bind {x : EStateM ε σ α} {f : α → EStateM ε σ β} (hx : Leads rel x)
    (htrans : ∀ s t u, rel s t → rel t u → rel s u) (hf : ∀ a, FailsIn rel (f a)) :
    FailsIn rel (x >>= f) := by
  intro s e s' h
  rcases run_bind_eq_error_iff.mp h with ha | ⟨a, middle, ha, hb⟩
  · exact hx.fails ha
  · exact htrans _ _ _ (hx.answers ha) (hf a _ _ _ hb)

/-- Two actions in a row lead where both do. -/
theorem Leads.bind (htrans : ∀ s t u, rel s t → rel t u → rel s u) {x : EStateM ε σ α}
    {f : α → EStateM ε σ β} (hx : Leads rel x) (hf : ∀ a, Leads rel (f a)) :
    Leads rel (x >>= f) where
  answers h := by
    obtain ⟨a, middle, ha, hb⟩ := run_bind_eq_ok_iff.mp h
    exact htrans _ _ _ (hx.answers ha) ((hf a).answers hb)
  fails h := hx.failsIn_bind htrans (fun a _ _ _ => (hf a).fails) _ _ _ h

theorem Leads.mapM (hrefl : ∀ s, rel s s) (htrans : ∀ s t u, rel s t → rel t u → rel s u)
    {f : α → EStateM ε σ β} (hf : ∀ a, Leads rel (f a)) (as : List α) :
    Leads rel (as.mapM f) := by
  induction as with
  | nil => exact .pure hrefl []
  | cons a as ih =>
    rw [List.mapM_cons]
    exact .bind htrans (hf a) fun b => .bind htrans ih fun bs => .pure hrefl (b :: bs)

end

namespace Recorded

variable {σ : Type}

/-- What is in the log stays there. -/
def Logs (r r' : Recorded σ) : Prop := r.log <+: r'.log

theorem Logs.refl (r : Recorded σ) : r.Logs r := List.prefix_rfl

theorem Logs.trans (r r' r'' : Recorded σ) (h : r.Logs r') (h' : r'.Logs r'') : r.Logs r'' :=
  List.IsPrefix.trans h h'

end Recorded

theorem leads_writeLog {σ : Type} (entry : Record) :
    Leads Recorded.Logs (writeLog entry : RollM σ Unit) where
  answers h := by
    rw [run_writeLog] at h
    cases h
    exact List.prefix_append ..
  fails h := nomatch h

namespace Roller

variable {σ : Type} (roller : Roller σ)

theorem leads_face (sides : UInt32) : Leads Recorded.Logs (roller.face sides) where
  answers h := by
    rw [Recorded.Logs, (run_face_eq_ok_iff.mp h).2]
  fails {r e r'} h := by
    rw [run_face] at h
    cases hdie : (roller.rollDie sides).run r.state with
    | ok face s =>
      rw [hdie] at h
      cases h
    | error fault s =>
      rw [hdie] at h
      cases h
      exact List.prefix_rfl

theorem leads_rollTerm (term : Term) : Leads Recorded.Logs (roller.rollTerm term) := by
  cases term with
  | constant sign value raw => exact .pure .refl _
  | dice sign count sides raw =>
    rw [rollTerm, faces_eq_mapM]
    exact .bind .trans (.mapM .refl .trans roller.leads_face _) fun _ =>
      .bind .trans (leads_writeLog _) fun _ => .pure .refl _

theorem leads_roll (terms : Terms) : Leads Recorded.Logs (roller.roll terms) :=
  .bind .trans (.mapM .refl .trans roller.leads_rollTerm _) fun _ => .pure .refl _

theorem leads_evaluateTerms (expression : String) (mode : Mode) (terms : Terms) :
    Leads Recorded.Logs (roller.evaluateTerms expression mode terms) := by
  rw [evaluateTerms, rollTimes_eq_mapM]
  exact .bind .trans (.mapM .refl .trans roller.leads_roll _) fun _ =>
    .bind .trans (leads_writeLog _) fun _ => .pure .refl _

/-- An evaluation, interrupted or not, only adds records to the log. -/
theorem leads_evaluate (limits : Limits) (mode : Mode) (expression : String) :
    Leads Recorded.Logs (roller.evaluate limits mode expression) := by
  refine .bind .trans (.bind .trans (leads_writeLog _) fun _ => .pure .refl _) fun parsed => ?_
  cases parsed with
  | error rejection => exact .pure .refl _
  | ok terms =>
    exact .bind .trans (roller.leads_evaluateTerms expression mode terms) fun _ => .pure .refl _

end Roller

def Terms.IsParsed (terms : Terms) : Prop :=
  ∃ limits input, Terms.parse limits input = .ok terms

/-- Terms that were parsed are within the limits they were parsed at. -/
theorem Terms.IsParsed.exists_within {terms : Terms} (h : terms.IsParsed) :
    ∃ limits, terms.Within limits := by
  obtain ⟨limits, input, hparse⟩ := h
  exact ⟨limits, within_of_parse hparse⟩

namespace Session

variable {s s' : Session}

/-- Only the source of faces and the log are other than before, and the log has grown at most. -/
structure Draws (s s' : Session) : Prop where
  eq : s' = { s with recorded := s'.recorded }
  logs : s.recorded.Logs s'.recorded

theorem Draws.refl (s : Session) : s.Draws s := ⟨rfl, .refl _⟩

theorem Draws.trans (s t u : Session) (h : s.Draws t) (h' : t.Draws u) : s.Draws u := by
  refine ⟨?_, .trans _ _ _ h.logs h'.logs⟩
  rw [h'.eq, h.eq]

theorem leads_run {α : Type} (action : Roller DieSource → RollM DieSource α)
    (h : Leads Recorded.Logs (action DieSource.roller)) : Leads Draws (run action) := by
  constructor
  · intro s a s' hrun
    rw [EStateM.run, run] at hrun
    split at hrun
    · next hvalue =>
      cases hrun
      exact ⟨rfl, h.answers hvalue⟩
    · cases hrun
  · intro s failure s' hrun
    rw [EStateM.run, run] at hrun
    split at hrun
    · cases hrun
    · next hfault =>
      cases hrun
      exact ⟨rfl, h.fails hfault⟩

/-- A session runs an action of its roller on its own state, and keeps the rest. -/
theorem run_run_eq_ok_iff {α : Type} {action : Roller DieSource → RollM DieSource α} {a : α} :
    (run action).run s = .ok a s' ↔
      ∃ r, (action DieSource.roller).run s.recorded = .ok a r ∧ { s with recorded := r } = s' := by
  rw [EStateM.run, run]
  cases (action DieSource.roller).run s.recorded with
  | ok value r => simp [and_assoc]
  | error fault r => simp

theorem run_accept_eq_ok_iff {α : Type} {x : Except Rejection α} {a : α} :
    (accept x).run s = .ok a s' ↔ x = .ok a ∧ s = s' := by
  cases x with
  | ok value => simp [accept]
  | error rejection => exact ⟨fun h => (nomatch h), fun h => (nomatch h.1)⟩

theorem run_readMode_eq_ok_iff {name? : Option String} {mode : Mode} :
    (readMode name?).run s = .ok mode s' ↔
      name?.elim (.ok default) Mode.ofName = .ok mode ∧ s = s' := by
  cases name? with
  | none => simp [readMode]
  | some name =>
    simp only [readMode, Option.elim_some]
    cases Mode.ofName name with
    | ok value => simp
    | error error => exact ⟨fun h => (nomatch h), fun h => (nomatch h.1)⟩

theorem run_storedTerms_eq_ok_iff {terms : Terms} :
    storedTerms.run s = .ok terms s' ↔ s.terms? = some terms ∧ s = s' := by
  obtain ⟨limits, recorded, terms?, rollSets, evaluations⟩ := s
  cases terms? with
  | none => exact ⟨fun h => (nomatch h), fun h => (nomatch h.1)⟩
  | some stored =>
    constructor
    · intro h
      cases h
      exact ⟨rfl, rfl⟩
    · rintro ⟨hterms, rfl⟩
      cases hterms
      rfl

/-- What an answered step does, with its answer and the session that it leaves. -/
inductive Does (s : Session) : Step → Answer → Session → Prop
  | limits (settings : List Limits.Setting) :
    Does s (.limits settings) (.limits (s.limits.setAll settings))
      { s with limits := s.limits.setAll settings }
  | resetLimits : Does s .resetLimits .limitsReset { s with limits := .default }
  | source (source : DieSource) :
    Does s (.source source) .ready { s with recorded := { s.recorded with state := source } }
  | parse {input : String} {terms : Terms} {r : Recorded DieSource} :
    (parseRecorded s.limits input).run s.recorded = .ok (.ok terms) r →
      Does s (.parse input) (.parsed terms (s.terms? = some terms))
        { s with recorded := r, terms? := some terms }
  | roll {terms : Terms} {set : RollSet} {r : Recorded DieSource} :
    s.terms? = some terms → (DieSource.roller.roll terms).run s.recorded = .ok set r →
      Does s .roll (.rolled set) { s with recorded := r, rollSets := s.rollSets ++ [set] }
  | rollDie {sides face : UInt32} {r : Recorded DieSource} :
    (DieSource.roller.face sides).run s.recorded = .ok face r →
      Does s (.rollDie sides) (.face face) { s with recorded := r }
  | evaluate {expression : String} {mode? : Option String} {mode : Mode} {e : Evaluation}
    {r : Recorded DieSource} :
    mode?.elim (.ok default) Mode.ofName = .ok mode →
    (DieSource.roller.evaluate s.limits mode expression).run s.recorded = .ok (.ok e) r →
      Does s (.evaluate expression mode?) (.evaluated e)
        { s with recorded := r, evaluations := s.evaluations ++ [e] }
  | rollEvaluation {label : String} {mode? : Option String} {mode : Mode} {terms : Terms}
    {e : Evaluation} {r : Recorded DieSource} :
    s.terms? = some terms → mode?.elim (.ok default) Mode.ofName = .ok mode →
    (DieSource.roller.evaluateTerms label mode terms).run s.recorded = .ok e r →
      Does s (.rollEvaluation label mode?) (.evaluated e)
        { s with recorded := r, evaluations := s.evaluations ++ [e] }
  | select {name : String} {mode : Mode} :
    Mode.ofName name = .ok mode →
      Does s (.select name) (.selected (s.rollSets.map RollSet.total)
        (mode.select (s.rollSets.map RollSet.total))) s
  | merge : Does s .merge (.rolled (.ofTerms (s.rollSets.flatMap RollSet.terms))) s
  | compare :
    Does s .compare (.compared (s.rollSets.map (s.rollSets.idxOf ·))
      (s.evaluations.map (s.evaluations.idxOf ·))) s

/-- A step that is answered does what is said of it, and nothing else. -/
theorem does_of_step {step : Step} {answer : Answer}
    (h : (Session.step step).run s = .ok answer s') : s.Does step answer s' := by
  cases step with
  | limits settings =>
    cases h
    exact .limits settings
  | resetLimits =>
    cases h
    exact .resetLimits
  | source source =>
    cases h
    exact .source source
  | parse input =>
    obtain ⟨_, _, hget, h⟩ := run_bind_eq_ok_iff.mp h
    cases hget
    obtain ⟨parsed, _, hparsed, h⟩ := run_bind_eq_ok_iff.mp h
    obtain ⟨r, hrun, rfl⟩ := run_run_eq_ok_iff.mp hparsed
    obtain ⟨terms, _, haccept, h⟩ := run_bind_eq_ok_iff.mp h
    obtain ⟨rfl, rfl⟩ := run_accept_eq_ok_iff.mp haccept
    cases h
    exact .parse hrun
  | roll =>
    obtain ⟨terms, _, hstored, h⟩ := run_bind_eq_ok_iff.mp h
    obtain ⟨hterms, rfl⟩ := run_storedTerms_eq_ok_iff.mp hstored
    obtain ⟨set, _, hset, h⟩ := run_bind_eq_ok_iff.mp h
    obtain ⟨r, hrun, rfl⟩ := run_run_eq_ok_iff.mp hset
    cases h
    exact .roll hterms hrun
  | rollDie sides =>
    obtain ⟨face, _, hface, h⟩ := run_bind_eq_ok_iff.mp h
    obtain ⟨r, hrun, rfl⟩ := run_run_eq_ok_iff.mp hface
    cases h
    exact .rollDie hrun
  | evaluate expression mode? =>
    obtain ⟨mode, _, hread, h⟩ := run_bind_eq_ok_iff.mp h
    obtain ⟨hmode, rfl⟩ := run_readMode_eq_ok_iff.mp hread
    obtain ⟨_, _, hget, h⟩ := run_bind_eq_ok_iff.mp h
    cases hget
    obtain ⟨outcome, _, houtcome, h⟩ := run_bind_eq_ok_iff.mp h
    obtain ⟨r, hrun, rfl⟩ := run_run_eq_ok_iff.mp houtcome
    obtain ⟨e, _, haccept, h⟩ := run_bind_eq_ok_iff.mp h
    obtain ⟨rfl, rfl⟩ := run_accept_eq_ok_iff.mp haccept
    cases h
    exact .evaluate hmode hrun
  | rollEvaluation label mode? =>
    obtain ⟨terms, _, hstored, h⟩ := run_bind_eq_ok_iff.mp h
    obtain ⟨hterms, rfl⟩ := run_storedTerms_eq_ok_iff.mp hstored
    obtain ⟨mode, _, hread, h⟩ := run_bind_eq_ok_iff.mp h
    obtain ⟨hmode, rfl⟩ := run_readMode_eq_ok_iff.mp hread
    obtain ⟨e, _, he, h⟩ := run_bind_eq_ok_iff.mp h
    obtain ⟨r, hrun, rfl⟩ := run_run_eq_ok_iff.mp he
    cases h
    exact .rollEvaluation hterms hmode hrun
  | select name =>
    obtain ⟨mode, _, hread, h⟩ := run_bind_eq_ok_iff.mp h
    obtain ⟨hmode, rfl⟩ := run_readMode_eq_ok_iff.mp hread
    cases h
    exact .select hmode
  | merge =>
    cases h
    exact .merge
  | compare =>
    cases h
    exact .compare

theorem leads_readMode (name? : Option String) : Leads Draws (readMode name?) := by
  cases name? with
  | none => exact .pure .refl _
  | some name =>
    rw [readMode]
    cases Mode.ofName name with
    | ok mode => exact .pure .refl _
    | error error => exact .throw .refl _

theorem leads_accept {α : Type} (x : Except Rejection α) : Leads Draws (accept x) := by
  cases x with
  | ok value => exact .pure .refl _
  | error rejection => exact .throw .refl _

theorem leads_storedTerms : Leads Draws storedTerms := by
  refine .bind .trans (.get .refl) fun session => ?_
  cases session.terms? with
  | some terms => exact .pure .refl _
  | none => exact .throw .refl _

theorem leads_parseRecorded (limits : Limits) (input : String) :
    Leads Recorded.Logs (parseRecorded limits input : RollM DieSource _) :=
  .bind .trans (leads_writeLog _) fun _ => .pure .refl _

/-- A step only keeps something once nothing in it can fail any more. -/
theorem failsIn_step (step : Step) : FailsIn Draws (Session.step step) := by
  have hget : Leads Draws (get : SessionM Session) := .get .refl
  cases step with
  | limits settings => exact .of_answers fun _ => ⟨_, _, rfl⟩
  | resetLimits => exact .of_answers fun _ => ⟨_, _, rfl⟩
  | source source => exact .of_answers fun _ => ⟨_, _, rfl⟩
  | parse input =>
    refine hget.failsIn_bind .trans fun session => ?_
    have hrun := leads_run (fun _ => parseRecorded session.limits input)
      (leads_parseRecorded session.limits input)
    exact hrun.failsIn_bind .trans fun parsed =>
      (leads_accept parsed).failsIn_bind .trans fun terms => .of_answers fun _ => ⟨_, _, rfl⟩
  | roll =>
    refine leads_storedTerms.failsIn_bind .trans fun terms => ?_
    have hrun := leads_run (·.roll terms) (DieSource.roller.leads_roll terms)
    exact hrun.failsIn_bind .trans fun set => .of_answers fun _ => ⟨_, _, rfl⟩
  | rollDie sides =>
    have hrun := leads_run (·.face sides) (DieSource.roller.leads_face sides)
    exact hrun.failsIn_bind .trans fun face => .of_answers fun _ => ⟨_, _, rfl⟩
  | evaluate expression mode? =>
    refine (leads_readMode mode?).failsIn_bind .trans fun mode => ?_
    refine hget.failsIn_bind .trans fun session => ?_
    have hrun := leads_run (·.evaluate session.limits mode expression)
      (DieSource.roller.leads_evaluate session.limits mode expression)
    exact hrun.failsIn_bind .trans fun outcome =>
      (leads_accept outcome).failsIn_bind .trans fun e => .of_answers fun _ => ⟨_, _, rfl⟩
  | rollEvaluation label mode? =>
    refine leads_storedTerms.failsIn_bind .trans fun terms => ?_
    refine (leads_readMode mode?).failsIn_bind .trans fun mode => ?_
    have hrun := leads_run (·.evaluateTerms label mode terms)
      (DieSource.roller.leads_evaluateTerms label mode terms)
    exact hrun.failsIn_bind .trans fun e => .of_answers fun _ => ⟨_, _, rfl⟩
  | select name =>
    exact (leads_readMode (some name)).failsIn_bind .trans fun mode =>
      .of_answers fun _ => ⟨_, _, rfl⟩
  | merge => exact .of_answers fun _ => ⟨_, _, rfl⟩
  | compare => exact .of_answers fun _ => ⟨_, _, rfl⟩

/-- The roll sets, the evaluations and the log are those of before, with more behind them. -/
structure Extends (s s' : Session) : Prop where
  rollSets : s.rollSets <+: s'.rollSets
  evaluations : s.evaluations <+: s'.evaluations
  logs : s.recorded.Logs s'.recorded

theorem Extends.refl (s : Session) : s.Extends s :=
  ⟨List.prefix_rfl, List.prefix_rfl, .refl _⟩

theorem Extends.trans {s'' : Session} (h : s.Extends s') (h' : s'.Extends s'') : s.Extends s'' :=
  ⟨h.rollSets.trans h'.rollSets, h.evaluations.trans h'.evaluations, .trans _ _ _ h.logs h'.logs⟩

theorem Draws.extends (h : s.Draws s') : s.Extends s' := by
  refine ⟨?_, ?_, h.logs⟩
  · rw [h.eq]
  · rw [h.eq]

/-- An answered step takes nothing off the table. -/
theorem Does.extends {step : Step} {answer : Answer} (h : s.Does step answer s') :
    s.Extends s' := by
  cases h with
  | limits | resetLimits | select | merge | compare =>
    exact ⟨List.prefix_rfl, List.prefix_rfl, .refl _⟩
  | source => exact ⟨List.prefix_rfl, List.prefix_rfl, List.prefix_rfl⟩
  | parse hrun =>
    exact ⟨List.prefix_rfl, List.prefix_rfl, (leads_parseRecorded _ _).answers hrun⟩
  | roll _ hrun =>
    exact ⟨List.prefix_append .., List.prefix_rfl, (DieSource.roller.leads_roll _).answers hrun⟩
  | rollDie hrun =>
    exact ⟨List.prefix_rfl, List.prefix_rfl, (DieSource.roller.leads_face _).answers hrun⟩
  | evaluate _ hrun =>
    exact ⟨List.prefix_rfl, List.prefix_append ..,
      (DieSource.roller.leads_evaluate _ _ _).answers hrun⟩
  | rollEvaluation _ _ hrun =>
    exact ⟨List.prefix_rfl, List.prefix_append ..,
      (DieSource.roller.leads_evaluateTerms _ _ _).answers hrun⟩

/-- All that is on the table came about by the rules: the terms are those of an accepted expression,
and so are the terms that were rolled. -/
structure IsSound (s : Session) : Prop where
  terms : ∀ terms, s.terms? = some terms → terms.IsParsed
  rollSets : ∀ set ∈ s.rollSets, ∃ terms t t', terms.IsParsed ∧
    DieSource.roller.RollsSet terms t set t'
  evaluations : ∀ e ∈ s.evaluations, ∃ terms t t', terms.IsParsed ∧
    DieSource.roller.Evaluates e.expression e.mode terms t e t'

theorem Draws.isSound (h : s.Draws s') (hs : s.IsSound) : s'.IsSound := by
  rw [h.eq]
  exact ⟨hs.terms, hs.rollSets, hs.evaluations⟩

/-- One more evaluation of parsed terms keeps a session sound. -/
theorem IsSound.concat_evaluation (hs : s.IsSound) {terms : Terms} {expression : String}
    {mode : Mode} {e : Evaluation} {t t' : DieSource} {r : Recorded DieSource}
    (hterms : terms.IsParsed) (he : DieSource.roller.Evaluates expression mode terms t e t') :
    IsSound { s with recorded := r, evaluations := s.evaluations ++ [e] } := by
  refine ⟨hs.terms, hs.rollSets, ?_⟩
  intro other hother
  rcases List.mem_append.mp hother with hother | hother
  · exact hs.evaluations other hother
  · obtain rfl := List.mem_singleton.mp hother
    rw [← he.expression_eq, ← he.mode_eq] at he
    exact ⟨terms, t, t', hterms, he⟩

/-- What an answered step puts on the table came about by the rules. -/
theorem Does.isSound {step : Step} {answer : Answer} (h : s.Does step answer s')
    (hs : s.IsSound) : s'.IsSound := by
  cases h with
  | limits | resetLimits | source | rollDie => exact ⟨hs.terms, hs.rollSets, hs.evaluations⟩
  | select | merge | compare => exact hs
  | @parse input terms r hrun =>
    refine ⟨?_, hs.rollSets, hs.evaluations⟩
    rintro _ ⟨rfl⟩
    rw [run_parseRecorded] at hrun
    injection hrun with hparse
    exact ⟨s.limits, input, hparse⟩
  | @roll terms set r hterms hrun =>
    obtain ⟨limits, hwithin⟩ := (hs.terms terms hterms).exists_within
    refine ⟨hs.terms, ?_, hs.evaluations⟩
    intro other hother
    rcases List.mem_append.mp hother with hother | hother
    · exact hs.rollSets other hother
    · obtain rfl := List.mem_singleton.mp hother
      exact ⟨terms, _, _, hs.terms terms hterms, Roller.rollsSet_of_run hwithin hrun⟩
  | evaluate _ hrun =>
    obtain ⟨terms, hparse, he⟩ := Roller.evaluates_of_run_evaluate hrun
    exact hs.concat_evaluation ⟨_, _, hparse⟩ he
  | rollEvaluation hterms _ hrun =>
    obtain ⟨limits, hwithin⟩ := (hs.terms _ hterms).exists_within
    exact hs.concat_evaluation (hs.terms _ hterms) (Roller.evaluates_of_run hwithin hrun)

/-- The session that a step leaves, whether it is answered or fails. -/
def after (s : Session) (step : Step) : Session :=
  match (Session.step step).run s with
  | .ok _ s' | .error _ s' => s'

/-- Every step does what it is there for, or draws faces at most. -/
theorem does_or_draws_after (s : Session) (step : Step) :
    (∃ answer, s.Does step answer (s.after step)) ∨ s.Draws (s.after step) := by
  rw [after]
  cases h : (Session.step step).run s with
  | ok answer s' => exact .inl ⟨answer, does_of_step h⟩
  | error failure s' => exact .inr (failsIn_step step _ _ _ h)

/-- After any steps, nothing is lost that was on the table, and all on it came about by the rules. -/
theorem IsSound.foldl_after (hs : s.IsSound) (steps : List Step) :
    (steps.foldl after s).IsSound ∧ s.Extends (steps.foldl after s) := by
  induction steps generalizing s with
  | nil => exact ⟨hs, .refl s⟩
  | cons step steps ih =>
    have hstep : (s.after step).IsSound ∧ s.Extends (s.after step) := by
      rcases s.does_or_draws_after step with ⟨answer, hdoes⟩ | hdraws
      · exact ⟨hdoes.isSound hs, hdoes.extends⟩
      · exact ⟨hdraws.isSound hs, hdraws.extends⟩
    obtain ⟨hsound, hextends⟩ := ih hstep.1
    exact ⟨hsound, hstep.2.trans hextends⟩

theorem isSound_start : IsSound {} := by
  refine ⟨?_, ?_, ?_⟩ <;> simp

/-- Whatever is done at a table that was empty, what is kept there came about by the rules. -/
theorem isSound_foldl_after (steps : List Step) : (steps.foldl after {}).IsSound :=
  (isSound_start.foldl_after steps).1

end Session
end FairDice
