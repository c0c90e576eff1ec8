/-!
# Upper bounds on an expression

Bounds can only be tightened: each setting is clamped to the default bound, and
the type holds no looser value.
-/
namespace FairDice

structure Limits where
  maxTerms : Nat := 20
  maxSides : Nat := 1000
  maxDice : Nat := 100
  maxTerms_le : maxTerms ≤ 20 := by decide
  maxSides_le : maxSides ≤ 1000 := by decide
  maxDice_le : maxDice ≤ 100 := by decide
  deriving DecidableEq, Repr

namespace Limits

/-- Twenty terms, a thousand sides on a die, a hundred dice. -/
def default : Limits := {}

instance : Inhabited Limits := ⟨default⟩

def withMaxTerms (limits : Limits) (n : Nat) : Limits :=
  { limits with maxTerms := min n 20, maxTerms_le := Nat.min_le_right n 20 }

def withMaxSides (limits : Limits) (n : Nat) : Limits :=
  { limits with maxSides := min n 1000, maxSides_le := Nat.min_le_right n 1000 }

def withMaxDice (limits : Limits) (n : Nat) : Limits :=
  { limits with maxDice := min n 100, maxDice_le := Nat.min_le_right n 100 }

@[simp] theorem maxTerms_withMaxTerms (l : Limits) (n : Nat) :
    (l.withMaxTerms n).maxTerms = min n 20 := rfl
@[simp] theorem maxTerms_withMaxSides (l : Limits) (n : Nat) :
    (l.withMaxSides n).maxTerms = l.maxTerms := rfl
@[simp] theorem maxTerms_withMaxDice (l : Limits) (n : Nat) :
    (l.withMaxDice n).maxTerms = l.maxTerms := rfl
@[simp] theorem maxSides_withMaxTerms (l : Limits) (n : Nat) :
    (l.withMaxTerms n).maxSides = l.maxSides := rfl
@[simp] theorem maxSides_withMaxSides (l : Limits) (n : Nat) :
    (l.withMaxSides n).maxSides = min n 1000 := rfl
@[simp] theorem maxSides_withMaxDice (l : Limits) (n : Nat) :
    (l.withMaxDice n).maxSides = l.maxSides := rfl
@[simp] theorem maxDice_withMaxTerms (l : Limits) (n : Nat) :
    (l.withMaxTerms n).maxDice = l.maxDice := rfl
@[simp] theorem maxDice_withMaxSides (l : Limits) (n : Nat) :
    (l.withMaxSides n).maxDice = l.maxDice := rfl
@[simp] theorem maxDice_withMaxDice (l : Limits) (n : Nat) :
    (l.withMaxDice n).maxDice = min n 100 := rfl

inductive Setting where
  | maxTerms (n : Nat)
  | maxSides (n : Nat)
  | maxDice (n : Nat)
  deriving DecidableEq, Repr

def set (limits : Limits) : Setting → Limits
  | .maxTerms n => limits.withMaxTerms n
  | .maxSides n => limits.withMaxSides n
  | .maxDice n => limits.withMaxDice n

/-- The settings one after another: of two on the same bound the later one counts. -/
def setAll (limits : Limits) (settings : List Setting) : Limits :=
  settings.foldl set limits

@[simp] theorem setAll_nil (l : Limits) : l.setAll [] = l := rfl
@[simp] theorem setAll_cons (l : Limits) (s : Setting) (ss : List Setting) :
    l.setAll (s :: ss) = (l.set s).setAll ss := rfl

end Limits
end FairDice
