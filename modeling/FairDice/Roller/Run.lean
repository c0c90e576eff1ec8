import FairDice.Log
import FairDice.Roller.Source
import FairDice.RollSet

/-!
# Rolling terms

A run draws faces from a roller and writes the log; where the roller fails, the
run ends there, and the state and the log stay as they were left.
-/
namespace FairDice

structure Recorded (σ : Type) where
  state : σ
  log : List Record := []

/-- What a run does: it answers or fails, and in both cases leaves a state and a log. -/
abbrev RollM (σ : Type) := EStateM Fault (Recorded σ)

variable {σ : Type}

def writeLog (entry : Record) : RollM σ Unit :=
  modify fun r => { r with log := r.log ++ [entry] }

@[simp] theorem run_writeLog (entry : Record) (r : Recorded σ) :
    (writeLog entry).run r = .ok () { r with log := r.log ++ [entry] } := rfl

namespace Roller

def face (roller : Roller σ) (sides : UInt32) : RollM σ UInt32 := fun r =>
  match (roller.rollDie sides).run r.state with
  | .ok face state => .ok face { r with state }
  | .error fault state => .error fault { r with state }

/-- As many faces as asked for, in the order they were rolled. -/
def faces (roller : Roller σ) (sides : UInt32) : Nat → RollM σ (List UInt32)
  | 0 => pure []
  | n + 1 => do
    let face ← roller.face sides
    return face :: (← roller.faces sides n)

/-- A face is rolled on the roller's own state, and no record is written. -/
theorem run_face (roller : Roller σ) (sides : UInt32) (r : Recorded σ) :
    (roller.face sides).run r =
      match (roller.rollDie sides).run r.state with
      | .ok face state => .ok face { r with state }
      | .error fault state => .error fault { r with state } := rfl

def rollTerm (roller : Roller σ) : Term → RollM σ TermRoll
  | .constant sign value raw => return .ofConstant sign value raw
  | .dice sign count sides raw => do
    let faces ← roller.faces sides count.toNat
    writeLog (.rolled raw faces)
    return .ofFaces sign faces raw

@[simp] theorem run_rollTerm_constant (roller : Roller σ) (sign : Sign) (value : UInt64)
    (raw : String) (r : Recorded σ) :
    (roller.rollTerm (.constant sign value raw)).run r = .ok (.ofConstant sign value raw) r := rfl

/-- The faces of dice are written into the log once all of them are rolled. -/
theorem run_rollTerm_dice (roller : Roller σ) (sign : Sign) (count sides : UInt32) (raw : String)
    (r : Recorded σ) :
    (roller.rollTerm (.dice sign count sides raw)).run r =
      match (roller.faces sides count.toNat).run r with
      | .ok faces r => .ok (.ofFaces sign faces raw) { r with log := r.log ++ [.rolled raw faces] }
      | .error fault r => .error fault r := by
  simp only [rollTerm, EStateM.run_bind, run_writeLog, EStateM.run_pure]
  cases (roller.faces sides count.toNat).run r <;> rfl

/-- Every term once, from left to right. -/
def roll (roller : Roller σ) (terms : Terms) : RollM σ RollSet := do
  return .ofTerms (← terms.toList.mapM roller.rollTerm)

end Roller
end FairDice
