import FairDice.Proofs.Rolling
import FairDice.Proofs.Storing

/-!
# Limits only tighten

Each bound is the least of the default one and of what was asked for last, in
whatever way the limits came about; and tighter limits accept less, never
anything else: what they accept means the same under looser ones, and what they
turn down they turn down for one of the bounds.
-/
namespace FairDice

namespace Limits

inductive Bound where
  | terms | sides | dice
  deriving DecidableEq, Repr

namespace Bound

def name : Bound → String
  | .terms => "maxTerms"
  | .sides => "maxSides"
  | .dice => "maxDice"

def place : Bound → Nat
  | .terms => 0
  | .sides => 1
  | .dice => 2

/-- How many numbers the word has that the bound is read into. -/
def size : Bound → Nat
  | .terms => UInt64.size
  | .sides | .dice => UInt32.size

def setting : Bound → Nat → Setting
  | .terms => .maxTerms
  | .sides => .maxSides
  | .dice => .maxDice

/-- What is stored for the bound, if anything. -/
def stored? (b : Bound) : Json → Option Json
  | .arr items => items[b.place]?
  | value => value.field? b.name

def given? (b : Bound) (value : Json) : Option Nat := (b.stored? value).bind (Json.nat? b.size)

theorem name_injective : Function.Injective name := by
  intro b b' h
  cases b <;> cases b' <;> simp_all [name]

end Bound

namespace Setting

def bound : Setting → Bound
  | .maxTerms _ => .terms
  | .maxSides _ => .sides
  | .maxDice _ => .dice

def value : Setting → Nat
  | .maxTerms n | .maxSides n | .maxDice n => n

def field (s : Setting) : String × Json := (s.bound.name, .int s.value)

@[simp] theorem bound_setting (b : Bound) (n : Nat) : (b.setting n).bound = b := by cases b <;> rfl
@[simp] theorem value_setting (b : Bound) (n : Nat) : (b.setting n).value = n := by cases b <;> rfl

end Setting

def get (limits : Limits) : Bound → Nat
  | .terms => limits.maxTerms
  | .sides => limits.maxSides
  | .dice => limits.maxDice

/-- The limits are at least as tight, bound by bound. -/
instance : LE Limits := ⟨fun limits other => ∀ b, limits.get b ≤ other.get b⟩

/-- Limits are given by their three bounds. -/
theorem ext_get {limits other : Limits} (h : ∀ b, limits.get b = other.get b) : limits = other := by
  have hterms := h .terms
  have hsides := h .sides
  have hdice := h .dice
  cases limits
  cases other
  simp_all [get]

/-- No limits are looser than the default. -/
theorem le_default (limits : Limits) : limits ≤ default := by
  intro b
  cases b with
  | terms => exact limits.maxTerms_le
  | sides => exact limits.maxSides_le
  | dice => exact limits.maxDice_le

/-- A setting changes its own bound and leaves the other ones. -/
theorem get_set (limits : Limits) (s : Setting) (b : Bound) :
    (limits.set s).get b = if s.bound = b then min s.value (default.get b) else limits.get b := by
  cases s <;> cases b <;> rfl

/-- What the last of the settings on a bound asks for. -/
def lastValue? (b : Bound) (settings : List Setting) : Option Nat :=
  (settings.filter (·.bound = b)).getLast?.map Setting.value

theorem lastValue?_concat (b : Bound) (settings : List Setting) (s : Setting) :
    lastValue? b (settings ++ [s]) =
      if s.bound = b then some s.value else lastValue? b settings := by
  by_cases h : s.bound = b <;> simp [lastValue?, List.filter_append, h]

theorem exists_of_lastValue? {b : Bound} {settings : List Setting} {n : Nat}
    (h : lastValue? b settings = some n) : ∃ s ∈ settings, s.bound = b ∧ s.value = n := by
  obtain ⟨s, hlast, rfl⟩ := Option.map_eq_some_iff.mp h
  obtain ⟨hmem, hbound⟩ := List.mem_filter.mp (List.mem_of_getLast? hlast)
  exact ⟨s, hmem, of_decide_eq_true hbound, rfl⟩

theorem setAll_concat (limits : Limits) (settings : List Setting) (s : Setting) :
    limits.setAll (settings ++ [s]) = (limits.setAll settings).set s := List.foldl_concat ..

/-- Only the last setting on a bound counts for it, and it counts against the default alone. -/
theorem get_setAll (limits : Limits) (settings : List Setting) (b : Bound) :
    (limits.setAll settings).get b =
      ((lastValue? b settings).map (min · (default.get b))).getD (limits.get b) := by
  induction settings using List.reverseRecOn with
  | nil => rfl
  | append_singleton settings s ih =>
    rw [setAll_concat, get_set, lastValue?_concat]
    split
    · rfl
    · exact ih

/-- Only the last setting of each bound counts. -/
theorem setAll_eq_of_lastValue?_eq (limits : Limits) {settings settings' : List Setting}
    (h : ∀ b, lastValue? b settings = lastValue? b settings') :
    limits.setAll settings = limits.setAll settings' := by
  apply ext_get
  intro b
  rw [get_setAll, get_setAll, h]

/-- A bound ends up at its last setting, but never above the default. -/
theorem get_default_setAll (settings : List Setting) (b : Bound) :
    (default.setAll settings).get b =
      min (default.get b) ((lastValue? b settings).getD (default.get b)) := by
  rw [get_setAll]
  cases lastValue? b settings with
  | none => simp
  | some n => exact Nat.min_comm n _

/-- The settings that a stored value stands for. -/
def storedSettings (value : Json) : List Setting :=
  [Bound.terms, .sides, .dice].flatMap fun b => ((b.given? value).map b.setting).toList

theorem lastValue?_storedSettings (b : Bound) (value : Json) :
    lastValue? b (storedSettings value) = b.given? value := by
  have hfilter : ∀ b' : Bound, ((b'.given? value).map b'.setting).toList.filter (·.bound = b) =
      if b' = b then ((b'.given? value).map b'.setting).toList else [] := by
    intro b'
    cases b'.given? value <;> simp [List.filter_cons]
  have hvalue : ((b.given? value).map b.setting).toList.getLast?.map Setting.value =
      b.given? value := by
    cases b.given? value <;> simp
  rw [lastValue?, storedSettings, ← hvalue]
  cases b <;> simp [hfilter]

variable {limits : Limits} {j : Json}

theorem partialRecord?_eq_some {items : List (Option Json)}
    (h : j.partialRecord? ["maxTerms", "maxSides", "maxDice"] = some items) :
    items = [Bound.terms.stored? j, Bound.sides.stored? j, Bound.dice.stored? j] := by
  cases j with
  | arr parts =>
    rw [Json.partialRecord?] at h
    split at h
    · exact (Option.some.inj h).symm
    · cases h
  | obj fields => exact (Option.some.inj h).symm
  | null => cases h
  | bool value => cases h
  | int value => cases h
  | decimal text => cases h
  | str value => cases h

theorem eq_of_bound?_eq_some {b : Bound} {n : Nat}
    (h : bound? b.size (default.get b) (b.stored? j) = some n) :
    n = (b.given? j).getD (default.get b) := by
  rw [Bound.given?]
  cases hstored : b.stored? j with
  | none =>
    rw [hstored] at h
    exact (Option.some.inj h).symm
  | some value =>
    rw [hstored] at h
    rw [Option.bind_some, show value.nat? b.size = some n from h, Option.getD_some]

/-- Stored limits are the default ones, tightened by what is stored. -/
theorem eq_of_ofJson? (h : ofJson? j = some limits) :
    limits = default.setAll (storedSettings j) := by
  obtain ⟨terms?, sides?, dice?, terms, sides, dice, hrecord, hterms, hsides, hdice, rfl⟩ :=
    ofJson?_eq_some_iff.mp h
  obtain ⟨rfl, rfl, rfl⟩ : terms? = _ ∧ sides? = _ ∧ dice? = _ := by
    simpa using partialRecord?_eq_some hrecord
  apply ext_get
  intro b
  rw [get_default_setAll, get_default_setAll, lastValue?_storedSettings]
  cases b with
  | terms =>
    rw [← eq_of_bound?_eq_some hterms]
    rfl
  | sides =>
    rw [← eq_of_bound?_eq_some hsides]
    rfl
  | dice =>
    rw [← eq_of_bound?_eq_some hdice]
    rfl

/-- In an object the last field of a name is found, as the last setting counts. -/
theorem field?_fields (settings : List Setting) (b : Bound) :
    (Json.obj (settings.map Setting.field)).field? b.name =
      (lastValue? b settings).map fun n : Nat => .int n := by
  rw [Json.field?]
  induction settings using List.reverseRecOn with
  | nil => rfl
  | append_singleton settings s ih =>
    rw [lastValue?_concat, List.map_append, List.reverse_append, List.map_singleton,
      List.reverse_singleton, List.singleton_append, Setting.field, List.lookup_cons]
    by_cases hbound : s.bound = b
    · simp [hbound]
    · have hname : (b.name == s.bound.name) = false :=
        beq_eq_false_iff_ne.mpr fun h => hbound (Bound.name_injective h).symm
      rw [hname, if_neg hbound]
      exact ih

/-- Any fields are read, in any order and number, as long as each number is in its word. -/
theorem ofJson?_fields {settings : List Setting} (h : ∀ s ∈ settings, s.value < s.bound.size) :
    ofJson? (.obj (settings.map Setting.field)) = some (default.setAll settings) := by
  have hbound : ∀ b : Bound,
      bound? b.size (default.get b) ((lastValue? b settings).map fun n : Nat => .int n) =
        some ((lastValue? b settings).getD (default.get b)) := by
    intro b
    cases hlast : lastValue? b settings with
    | none => rfl
    | some n =>
      obtain ⟨s, hs, rfl, rfl⟩ := exists_of_lastValue? hlast
      exact bound?_int (h s hs)
  refine ofJson?_eq_some_iff.mpr ⟨_, _, _, _, _, _, ?_, hbound .terms, hbound .sides, hbound .dice,
    ?_⟩
  · have hterms := field?_fields settings .terms
    have hsides := field?_fields settings .sides
    have hdice := field?_fields settings .dice
    rw [← hterms, ← hsides, ← hdice]
    rfl
  · apply ext_get
    intro b
    rw [get_default_setAll, get_default_setAll]
    cases b <;> rfl

/-- The ways in which limits come about, with all that was asked for. -/
inductive ComesFrom : List Setting → Limits → Prop
  | default : ComesFrom [] default
  | stored {j : Json} {limits : Limits} : ofJson? j = some limits →
    ComesFrom (storedSettings j) limits
  | set {settings : List Setting} {limits : Limits} (s : Setting) : ComesFrom settings limits →
    ComesFrom (settings ++ [s]) (limits.set s)

/-- Limits come about by settings from the default, and by nothing else. -/
theorem ComesFrom.eq_setAll {settings : List Setting} (h : ComesFrom settings limits) :
    limits = Limits.default.setAll settings := by
  induction h with
  | default => rfl
  | stored h => exact eq_of_ofJson? h
  | set s _ ih => rw [setAll_concat, ih]

end Limits

def Term.SidesWithin (limits : Limits) : Term → Prop
  | .dice _ _ sides _ => sides.toNat ≤ limits.maxSides
  | .constant .. => True

/-- There are few enough terms, their dice have few enough sides, and the dice are few enough. -/
structure Terms.Meets (limits : Limits) (terms : Terms) : Prop where
  length_le : terms.length ≤ limits.maxTerms
  sides_le : ∀ term ∈ terms.toList, term.SidesWithin limits
  dice_le : terms.diceCount.toNat ≤ limits.maxDice

section

variable {limits tighter : Limits} {ws : List Written}

theorem Written.Fits.mono {w : Written} (h : w.Fits tighter) (hle : tighter ≤ limits) :
    w.Fits limits :=
  ⟨h.numbers_le, h.count_pos, h.sides_pos,
    fun digits hdigits => (h.sides_le digits hdigits).trans (hle .sides)⟩

/-- What tighter limits allow, looser ones do. -/
theorem Acceptable.mono (h : Acceptable tighter ws) (hle : tighter ≤ limits) :
    Acceptable limits ws :=
  ⟨h.length_le.trans (hle .terms), fun w hw => (h.fits w hw).mono hle, h.dice_le.trans (hle .dice)⟩

/-- What is accepted means the same under looser limits. -/
theorem Terms.parse_mono {input : String} {terms : Terms} (hle : tighter ≤ limits)
    (h : parse tighter input = .ok terms) : parse limits input = .ok terms := by
  obtain ⟨ws, hws, hacceptable, hmeans⟩ := ofExpression_eq_ok_iff.mp h
  exact ofExpression_eq_ok_iff.mpr ⟨ws, hws, hacceptable.mono hle, hmeans⟩

theorem Written.Means.sidesWithin_iff {w : Written} {term : Term} (h : w.Means term) :
    term.SidesWithin limits ↔ ∀ digits ∈ w.sides?, decimalValue digits ≤ limits.maxSides := by
  cases term with
  | dice sign count sides raw =>
    obtain ⟨-, -, ⟨digits, hdigits, hsides⟩, -⟩ := h
    simp [Term.SidesWithin, hdigits, hsides]
  | constant sign value raw =>
    obtain ⟨-, -, hnone, -⟩ := h
    simp [Term.SidesWithin, hnone]

theorem forall_sidesWithin_iff {terms : List Term} (h : List.Forall₂ Written.Means ws terms) :
    (∀ term ∈ terms, term.SidesWithin limits) ↔
      ∀ w ∈ ws, ∀ digits ∈ w.sides?, decimalValue digits ≤ limits.maxSides := by
  induction h with
  | nil => simp
  | cons hmeans _ ih => rw [List.forall_mem_cons, List.forall_mem_cons, ih, hmeans.sidesWithin_iff]

/-- Operands that some limits accept are accepted by others if their terms are within the bounds. -/
theorem Acceptable.acceptable_iff_meets {terms : Terms} (h : Acceptable limits ws)
    (hmeans : List.Forall₂ Written.Means ws terms.toList) :
    Acceptable tighter ws ↔ terms.Meets tighter := by
  have hlength : ws.length = terms.length := hmeans.length_eq
  have hsum : (terms.toList.map (·.diceCount.toNat)).sum = diceOf ws := diceCount_eq_diceOf hmeans
  have hdice : terms.diceCount.toNat = diceOf ws := by
    rw [← hsum]
    refine Terms.toNat_diceCount_eq_sum (hsum ▸ h.dice_le.trans_lt ?_)
    exact limits.maxDice_le.trans_lt (by decide)
  constructor
  · rintro ⟨hterms, hfits, hle⟩
    refine ⟨hlength ▸ hterms, ?_, hdice ▸ hle⟩
    exact (forall_sidesWithin_iff hmeans).mpr fun w hw => (hfits w hw).sides_le
  · rintro ⟨hterms, hsides, hle⟩
    refine ⟨hlength ▸ hterms, fun w hw => ?_, hdice ▸ hle⟩
    have hw' := h.fits w hw
    exact ⟨hw'.numbers_le, hw'.count_pos, hw'.sides_pos,
      (forall_sidesWithin_iff hmeans).mp hsides w hw⟩

/-- A kind of rejection that looser limits can spare. -/
def Rejection.Kind.IsOfLimits (kind : Rejection.Kind) : Prop :=
  kind = .tooManyTerms ∨ kind = .diceSidesExceedLimit ∨ kind = .diceCountExceedsLimit

/-- Operands that some limits accept break only the rules that limits set. -/
theorem FirstViolation.isOfLimits_kind {s : List Char} {rejection : Rejection}
    (h : FirstViolation tighter s rejection) (hws : Writes ws s)
    (hacceptable : Acceptable limits ws) : rejection.kind.IsOfLimits := by
  cases h with
  | empty hs => exact absurd hs hws.text_ne_nil
  | misfit _ hs _ => exact absurd (Grammar.mem_expression_iff.mpr ⟨ws, hws⟩) hs
  | tooMany _ _ => exact .inl rfl
  | @operand ws' front w rule hws' _ hbreak =>
    obtain rfl := hws'.unique hws
    obtain ⟨back, hsplit⟩ := hbreak.split
    have hkeeps := (acceptable_iff.mp hacceptable).2 front w back hsplit
    cases rule with
    | number => exact absurd hbreak.breaks.breaks (hkeeps .number)
    | positive => exact absurd hbreak.breaks.breaks (hkeeps .positive)
    | sides => exact .inr (.inl rfl)
    | dice => exact .inr (.inr rfl)

/-- What some limits accept, tighter ones accept or reject for the bounds. -/
theorem Terms.parse_of_parse_looser {input : String} {terms : Terms}
    (h : parse limits input = .ok terms) :
    (parse tighter input = .ok terms ↔ terms.Meets tighter) ∧
      (¬terms.Meets tighter →
        ∃ rejection, parse tighter input = .error rejection ∧ rejection.kind.IsOfLimits) := by
  obtain ⟨ws, hws, hacceptable, hmeans⟩ := ofExpression_eq_ok_iff.mp h
  have hmeets : parse tighter input = .ok terms ↔ terms.Meets tighter := by
    rw [← hacceptable.acceptable_iff_meets hmeans]
    constructor
    · intro htighter
      obtain ⟨ws', hws', hacceptable', -⟩ := ofExpression_eq_ok_iff.mp htighter
      exact hws'.unique hws ▸ hacceptable'
    · exact fun hacceptable' => ofExpression_eq_ok_iff.mpr ⟨ws, hws, hacceptable', hmeans⟩
  refine ⟨hmeets, fun hnot => ?_⟩
  cases hparse : parse tighter input with
  | error rejection =>
    exact ⟨rejection, rfl, (ofExpression_eq_error_iff.mp hparse).isOfLimits_kind hws hacceptable⟩
  | ok terms' =>
    obtain ⟨ws', hws', hacceptable', -⟩ := ofExpression_eq_ok_iff.mp hparse
    obtain rfl := hws'.unique hws
    exact absurd ((hacceptable.acceptable_iff_meets hmeans).mp hacceptable') hnot

end

/-- Limits only tighten, whatever they come from, and tighter limits accept the same with the same
meaning, as far as it is within their bounds. -/
theorem limits_only_tighten :
    (∀ settings limits, Limits.ComesFrom settings limits →
      (∀ b, limits.get b = min (Limits.default.get b)
        ((Limits.lastValue? b settings).getD (Limits.default.get b))) ∧
      Limits.ofJson? limits.toJson = some limits ∧
      (Json.read? limits.toJson.write).bind Limits.ofJson? = some limits) ∧
    (∀ settings : List Limits.Setting, (∀ s ∈ settings, s.value < s.bound.size) →
      Limits.ofJson? (.obj (settings.map Limits.Setting.field)) =
        some (Limits.default.setAll settings)) ∧
    (∀ (limits : Limits) (settings settings' : List Limits.Setting),
      (∀ b, settings.filter (·.bound = b) = settings'.filter (·.bound = b)) →
        limits.setAll settings = limits.setAll settings') ∧
    (∀ (tighter limits : Limits) (input : String) (terms : Terms), tighter ≤ limits →
      (Terms.parse tighter input = .ok terms → Terms.parse limits input = .ok terms) ∧
      (Terms.parse limits input = .ok terms →
        (Terms.parse tighter input = .ok terms ↔ terms.Meets tighter) ∧
        (¬terms.Meets tighter → ∃ rejection, Terms.parse tighter input = .error rejection ∧
          rejection.kind.IsOfLimits))) ∧
    ∀ (limits : Limits) (input : String) (terms : Terms),
      Terms.parse limits input = .ok terms → Terms.parse .default input = .ok terms := by
  refine ⟨?_, ?_, ?_, ?_, ?_⟩
  · intro settings limits h
    have hstored := Limits.restores.storesFaithfully Limits.isWellFormed_toJson
    refine ⟨fun b => ?_, hstored.value limits, hstored.text limits⟩
    rw [h.eq_setAll, Limits.get_default_setAll]
  · exact fun settings h => Limits.ofJson?_fields h
  · intro limits settings settings' h
    apply Limits.setAll_eq_of_lastValue?_eq
    intro b
    rw [Limits.lastValue?, h, Limits.lastValue?]
  · exact fun tighter limits input terms hle =>
      ⟨Terms.parse_mono hle, Terms.parse_of_parse_looser⟩
  · exact fun limits input terms => Terms.parse_mono limits.le_default

/-- A stored bound far beyond the default one changes nothing, one dice less than asked for does. -/
theorem limits_only_tighten_stored_dice :
    let limits := Limits.default.setAll [.maxSides 5000, .maxDice 2]
    let terms : Terms := ⟨[.dice .plus 3 6 "3d6"]⟩
    Limits.ofJson? (.obj [("maxSides", .int 5000), ("maxDice", .int 2)]) = some limits ∧
      Terms.parse .default "3d6" = .ok terms ∧
        ∃ rejection, Terms.parse limits "3d6" = .error rejection ∧ rejection.kind.IsOfLimits := by
  intro limits terms
  have hparse : Terms.parse .default "3d6" = .ok terms := by decide
  have hmeets : ¬terms.Meets limits := fun h => absurd h.dice_le (by decide)
  refine ⟨limits_only_tighten.2.1 [.maxSides 5000, .maxDice 2] (by decide), hparse, ?_⟩
  exact ((limits_only_tighten.2.2.2.1 limits .default "3d6" terms limits.le_default).2 hparse).2
    hmeets

end FairDice
