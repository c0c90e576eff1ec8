/-!
# The sign of an operand

It is the operator in front of the operand, or plus where none is written. Totals
are 64-bit signed words, so a sign acts on those.
-/
namespace FairDice

inductive Sign where
  | plus | minus
  deriving DecidableEq, Repr, Inhabited

namespace Sign

def symbol : Sign → Char
  | .plus => '+'
  | .minus => '-'

def ofOperator? : Char → Option Sign
  | '+' => some .plus
  | '-' => some .minus
  | _ => none

@[simp] theorem ofOperator?_symbol (s : Sign) : ofOperator? s.symbol = some s := by
  cases s <;> rfl

theorem eq_symbol_of_ofOperator? {c : Char} {s : Sign} (h : ofOperator? c = some s) :
    c = s.symbol := by
  unfold ofOperator? at h
  split at h <;> simp at h <;> subst h <;> rfl

def apply : Sign → Int64 → Int64
  | .plus, value => value
  | .minus, value => -value

@[simp] theorem apply_plus (value : Int64) : apply .plus value = value := rfl
@[simp] theorem apply_minus (value : Int64) : apply .minus value = -value := rfl

def flip : Sign → Sign
  | .plus => .minus
  | .minus => .plus

@[simp] theorem flip_flip (s : Sign) : s.flip.flip = s := by cases s <;> rfl

end Sign

def isOperator (c : Char) : Bool := (Sign.ofOperator? c).isSome

@[simp] theorem isOperator_symbol (s : Sign) : isOperator s.symbol = true := by
  cases s <;> rfl

theorem isOperator_iff {c : Char} : isOperator c = true ↔ c = '+' ∨ c = '-' := by
  unfold isOperator Sign.ofOperator?
  split <;> simp_all

end FairDice
