import FairDice.Text.Quoted

/-!
# Modes of rolling

A mode says how often an expression is rolled, and which of the outcomes is kept:
the only one, the greater of two, or the lesser of two. Of equal outcomes the
first is kept.
-/
namespace FairDice

inductive Mode where
  | normal | advantage | disadvantage
  deriving DecidableEq, Repr, Inhabited

namespace Mode

def rollCount : Mode → Nat
  | .normal => 1
  | .advantage | .disadvantage => 2

/-- Every mode but the normal one rolls the terms twice. -/
theorem rollCount_eq (m : Mode) : m.rollCount = if m = .normal then 1 else 2 := by
  cases m <;> rfl

theorem rollCount_pos (m : Mode) : 0 < m.rollCount := by cases m <;> decide

def replaces : Mode → Int64 → Int64 → Bool
  | .normal, _, _ => false
  | .advantage, total, kept => kept < total
  | .disadvantage, total, kept => total < kept

/-- The choice among the totals from place `next` on, against the one kept so far. -/
def selectFrom (mode : Mode) (kept : Int64) (place next : Nat) : List Int64 → Nat
  | [] => place
  | total :: totals =>
    if mode.replaces total kept then mode.selectFrom total next (next + 1) totals
    else mode.selectFrom kept place (next + 1) totals

/-- The place of the total to keep, counted from zero; zero where there is none. -/
def select (mode : Mode) : List Int64 → Nat
  | [] => 0
  | total :: totals => mode.selectFrom total 0 1 totals

@[simp] theorem select_nil (m : Mode) : m.select [] = 0 := rfl

def name : Mode → String
  | .normal => "normal"
  | .advantage => "advantage"
  | .disadvantage => "disadvantage"

def all : List Mode := [.normal, .advantage, .disadvantage]

theorem mem_all (m : Mode) : m ∈ all := by cases m <;> decide

end Mode

structure UnknownMode where
  rejected : String
  deriving DecidableEq, Repr

def UnknownMode.message (e : UnknownMode) : String :=
  "unknown roll mode " ++ quoted e.rejected ++ " (expected normal, advantage or disadvantage)"

/-- The mode of a name; capital and small ASCII letters are the same. -/
def Mode.ofName (name : String) : Except UnknownMode Mode :=
  match all.find? (·.name = name.map Char.toLower) with
  | some mode => .ok mode
  | none => .error ⟨name⟩

end FairDice
