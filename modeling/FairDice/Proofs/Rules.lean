import FairDice.Limits
import FairDice.Number
import FairDice.Proofs.Grammar
import FairDice.Rejection
import FairDice.Term
import Mathlib

/-!
# The rules that operands have to keep

The rules are said about the exact values that are written. Of a row of operands
that breaks them, the leftmost operand that does counts, and the first rule that
it breaks. Operands keep all rules exactly when each of them fits and all dice
together are few enough, in whatever order they are looked at.
-/
namespace FairDice

namespace Written

/-- A first operand without an operator counts as positive. -/
def sign (w : Written) : Sign := w.sign?.getD .plus

def token (w : Written) : String := String.ofList w.text

def numbers (w : Written) : List (List Char) := w.first :: w.sides?.toList

def dice (w : Written) : Nat := if w.sides?.isSome then decimalValue w.first else 0

/-- The term that an operand stands for, number by number as written. -/
def Means (w : Written) : Term → Prop
  | .dice sign count sides raw =>
    sign = w.sign ∧ count.toNat = decimalValue w.first ∧
      (∃ digits, w.sides? = some digits ∧ sides.toNat = decimalValue digits) ∧ raw = w.token
  | .constant sign value raw =>
    sign = w.sign ∧ value.toNat = decimalValue w.first ∧ w.sides? = none ∧ raw = w.token

end Written

/-- The dice of operands in a row, whatever their signs. -/
def diceOf (ws : List Written) : Nat := (ws.map Written.dice).sum

@[simp] theorem diceOf_nil : diceOf [] = 0 := rfl

@[simp] theorem diceOf_cons (w : Written) (ws : List Written) :
    diceOf (w :: ws) = w.dice + diceOf ws := rfl

/-- What an operand can break: its numbers are small enough, dice and sides are positive, the sides
are within their limit, and so are all dice up to and including it. -/
inductive Rule where
  | number | positive | sides | dice
  deriving DecidableEq, Repr

namespace Rule

/-- Where the rule comes among those of one operand. -/
def rank : Rule → Nat
  | .number => 0
  | .positive => 1
  | .sides => 2
  | .dice => 3

/-- The answer to an operand that breaks the rule, `start` bytes into the expression and with
`diceBefore` dice to its left. -/
def rejection (limits : Limits) (diceBefore start : Nat) (w : Written) (rule : Rule) : Rejection :=
  let span : Span := ⟨start, start + byteLength w.text⟩
  match rule with
  | .number => .invalidNumber w.token span
  | .positive => .invalidDiceTerm w.token span
  | .sides =>
    .diceSidesExceedLimit w.token (decimalValue (w.sides?.getD [])) limits.maxSides span
  | .dice => .diceCountExceedsLimit w.token (diceBefore + w.dice) limits.maxDice span

end Rule

section

variable (limits : Limits) (diceBefore : Nat)

namespace Written

def Breaks (w : Written) : Rule → Prop
  | .number => ∃ digits ∈ w.numbers, maxValue < decimalValue digits
  | .positive => ∃ digits ∈ w.sides?, decimalValue w.first = 0 ∨ decimalValue digits = 0
  | .sides => ∃ digits ∈ w.sides?, limits.maxSides < decimalValue digits
  | .dice => limits.maxDice < diceBefore + w.dice

/-- The operand breaks the rule and none that comes before it. -/
structure FirstBreaks (w : Written) (rule : Rule) : Prop where
  breaks : w.Breaks limits diceBefore rule
  first : ∀ earlier : Rule, earlier.rank < rule.rank → ¬w.Breaks limits diceBefore earlier

end Written

def KeepsRules (ws : List Written) : Prop :=
  ∀ front w back, ws = front ++ w :: back →
    ∀ rule, ¬w.Breaks limits (diceBefore + diceOf front) rule

/-- The leftmost operand to break a rule is `w`, behind `front`. -/
structure FirstBreak (ws front : List Written) (w : Written) (rule : Rule) : Prop where
  split : ∃ back, ws = front ++ w :: back
  before : KeepsRules limits diceBefore front
  breaks : w.FirstBreaks limits (diceBefore + diceOf front) rule

end

variable {limits : Limits}

theorem keepsRules_nil (dice : Nat) : KeepsRules limits dice [] := by
  intro front w back h
  simp at h

theorem keepsRules_cons {dice : Nat} {w : Written} {ws : List Written} :
    KeepsRules limits dice (w :: ws) ↔
      (∀ rule, ¬w.Breaks limits dice rule) ∧ KeepsRules limits (dice + w.dice) ws := by
  constructor
  · intro h
    constructor
    · exact h [] w ws rfl
    · intro front v back hws
      have hv := h (w :: front) v back (by rw [hws, List.cons_append])
      rwa [diceOf_cons, ← Nat.add_assoc] at hv
  · rintro ⟨hw, hws⟩ front v back h
    cases front with
    | nil =>
      obtain ⟨rfl, -⟩ := List.cons.inj h
      exact hw
    | cons u front =>
      obtain ⟨rfl, htail⟩ := List.cons.inj h
      rw [diceOf_cons, ← Nat.add_assoc]
      exact hws front v back htail

/-- An operand that breaks a rule breaks some rule first. -/
theorem Written.exists_firstBreaks (limits : Limits) (dice : Nat) (w : Written) :
    (∀ rule, ¬w.Breaks limits dice rule) ∨ ∃ rule, w.FirstBreaks limits dice rule := by
  by_cases h : ∃ rule, w.Breaks limits dice rule
  · obtain ⟨rule, hbreaks, hmin⟩ :=
      (measure Rule.rank).wf.has_min {rule | w.Breaks limits dice rule} h
    exact .inr ⟨rule, hbreaks, fun earlier hlt hearlier => hmin earlier hearlier hlt⟩
  · exact .inl (not_exists.mp h)

/-- A row that breaks a rule has a leftmost operand that does. -/
theorem exists_firstBreak (limits : Limits) (dice : Nat) (ws : List Written) :
    KeepsRules limits dice ws ∨ ∃ front w rule, FirstBreak limits dice ws front w rule := by
  induction ws generalizing dice with
  | nil => exact .inl (keepsRules_nil dice)
  | cons w ws ih =>
    obtain hw | ⟨rule, hw⟩ := w.exists_firstBreaks limits dice
    · obtain hws | ⟨front, v, rule, ⟨back, hsplit⟩, hfront, hv⟩ := ih (dice + w.dice)
      · exact .inl (keepsRules_cons.mpr ⟨hw, hws⟩)
      · refine .inr ⟨w :: front, v, rule, ⟨back, ?_⟩, keepsRules_cons.mpr ⟨hw, hfront⟩, ?_⟩
        · rw [hsplit, List.cons_append]
        · rwa [diceOf_cons, ← Nat.add_assoc]
    · exact .inr ⟨[], w, rule, ⟨ws, rfl⟩, keepsRules_nil dice, hw⟩

/-- The operand by itself is within the bounds. -/
structure Written.Fits (limits : Limits) (w : Written) : Prop where
  numbers_le : ∀ digits ∈ w.numbers, decimalValue digits ≤ maxValue
  count_pos : w.sides?.isSome → 1 ≤ decimalValue w.first
  sides_pos : ∀ digits ∈ w.sides?, 1 ≤ decimalValue digits
  sides_le : ∀ digits ∈ w.sides?, decimalValue digits ≤ limits.maxSides

/-- The operands are within the bounds, each by itself and all together. -/
structure Acceptable (limits : Limits) (ws : List Written) : Prop where
  length_le : ws.length ≤ limits.maxTerms
  fits : ∀ w ∈ ws, w.Fits limits
  dice_le : diceOf ws ≤ limits.maxDice

/-- An operand breaks no rule when it fits the limits, and its dice with those before it. -/
theorem Written.forall_not_breaks_iff {dice : Nat} {w : Written} :
    (∀ rule, ¬w.Breaks limits dice rule) ↔
      w.Fits limits ∧ dice + w.dice ≤ limits.maxDice := by
  constructor
  · intro h
    refine ⟨⟨?_, ?_, ?_, ?_⟩, Nat.not_lt.mp (h .dice)⟩
    · intro digits hdigits
      exact Nat.not_lt.mp fun hlt => h .number ⟨digits, hdigits, hlt⟩
    · intro hsome
      obtain ⟨digits, hdigits⟩ := Option.isSome_iff_exists.mp hsome
      exact Nat.pos_of_ne_zero fun hzero => h .positive ⟨digits, hdigits, .inl hzero⟩
    · intro digits hdigits
      exact Nat.pos_of_ne_zero fun hzero => h .positive ⟨digits, hdigits, .inr hzero⟩
    · intro digits hdigits
      exact Nat.not_lt.mp fun hlt => h .sides ⟨digits, hdigits, hlt⟩
  · rintro ⟨hfits, hdice⟩ rule hbreaks
    cases rule with
    | number =>
      obtain ⟨digits, hdigits, hlt⟩ := hbreaks
      exact Nat.not_lt.mpr (hfits.numbers_le digits hdigits) hlt
    | positive =>
      obtain ⟨digits, hdigits, hzero⟩ := hbreaks
      have hcount := hfits.count_pos (Option.isSome_of_mem hdigits)
      have hsides := hfits.sides_pos digits hdigits
      omega
    | sides =>
      obtain ⟨digits, hdigits, hlt⟩ := hbreaks
      exact Nat.not_lt.mpr (hfits.sides_le digits hdigits) hlt
    | dice => exact Nat.not_lt.mpr hdice hbreaks

/-- The dice so far only grow, so that comparing them at each operand is comparing them once. -/
theorem keepsRules_iff {dice : Nat} {ws : List Written} (hdice : dice ≤ limits.maxDice) :
    KeepsRules limits dice ws ↔
      (∀ w ∈ ws, w.Fits limits) ∧ dice + diceOf ws ≤ limits.maxDice := by
  induction ws generalizing dice with
  | nil => simp [keepsRules_nil, hdice]
  | cons w ws ih =>
    rw [keepsRules_cons, Written.forall_not_breaks_iff, List.forall_mem_cons, diceOf_cons,
      ← Nat.add_assoc]
    constructor
    · rintro ⟨⟨hw, hle⟩, hrest⟩
      obtain ⟨hws, hall⟩ := (ih hle).mp hrest
      exact ⟨⟨hw, hws⟩, hall⟩
    · rintro ⟨⟨hw, hws⟩, hall⟩
      have hle : dice + w.dice ≤ limits.maxDice := by omega
      exact ⟨⟨hw, hle⟩, (ih hle).mpr ⟨hws, hall⟩⟩

/-- A row is acceptable when it is short enough and no operand breaks a rule. -/
theorem acceptable_iff {ws : List Written} :
    Acceptable limits ws ↔ ws.length ≤ limits.maxTerms ∧ KeepsRules limits 0 ws := by
  rw [keepsRules_iff (Nat.zero_le _), Nat.zero_add]
  exact ⟨fun h => ⟨h.length_le, h.fits, h.dice_le⟩, fun ⟨h, hfits, hdice⟩ => ⟨h, hfits, hdice⟩⟩

/-- An operand stands for one term. -/
theorem Written.means_rightUnique : Relator.RightUnique Written.Means := by
  intro w term other hterm hother
  cases term with
  | dice sign count sides raw =>
    obtain ⟨rfl, hcount, ⟨digits, hdigits, hsides⟩, rfl⟩ := hterm
    cases other with
    | dice sign' count' sides' raw' =>
      obtain ⟨rfl, hcount', ⟨digits', hdigits', hsides'⟩, rfl⟩ := hother
      obtain rfl := Option.some.inj (hdigits.symm.trans hdigits')
      rw [UInt32.toNat_inj.mp (hcount.trans hcount'.symm),
        UInt32.toNat_inj.mp (hsides.trans hsides'.symm)]
    | constant sign' value' raw' =>
      obtain ⟨-, -, hnone, -⟩ := hother
      rw [hdigits] at hnone
      cases hnone
  | constant sign value raw =>
    obtain ⟨rfl, hvalue, hnone, rfl⟩ := hterm
    cases other with
    | dice sign' count' sides' raw' =>
      obtain ⟨-, -, ⟨digits, hdigits, -⟩, -⟩ := hother
      rw [hdigits] at hnone
      cases hnone
    | constant sign' value' raw' =>
      obtain ⟨rfl, hvalue', -, rfl⟩ := hother
      rw [UInt64.toNat_inj.mp (hvalue.trans hvalue'.symm)]

end FairDice
