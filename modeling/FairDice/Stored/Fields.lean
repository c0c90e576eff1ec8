import FairDice.Json.Basic

/-!
# Reading stored values back from JSON

A record is an object with its fields in any order, fields of other names
ignored, or an array of its fields in their order. Numbers are integers inside
the range of the word they are stored in.
-/
namespace FairDice.Json

def str? : Json → Option String
  | .str text => some text
  | _ => none

def nat? (bound : Nat) : Json → Option Nat
  | .int value => if 0 ≤ value ∧ value < bound then some value.toNat else none
  | _ => none

def uint32? (value : Json) : Option UInt32 := (value.nat? UInt32.size).map UInt32.ofNat

def uint64? (value : Json) : Option UInt64 := (value.nat? UInt64.size).map UInt64.ofNat

def int64? : Json → Option Int64
  | .int value => 
    if Int64.minValue.toInt ≤ value ∧ value ≤ Int64.maxValue.toInt then some (Int64.ofInt value)
    else none
  | _ => none

def ofUInt32 (value : UInt32) : Json := .int value.toNat

def ofUInt64 (value : UInt64) : Json := .int value.toNat

def ofInt64 (value : Int64) : Json := .int value.toInt

@[simp] theorem uint32?_ofUInt32 (value : UInt32) : (ofUInt32 value).uint32? = some value := by
  have := value.toNat_lt
  simp [uint32?, ofUInt32, nat?]; omega

@[simp] theorem uint64?_ofUInt64 (value : UInt64) : (ofUInt64 value).uint64? = some value := by
  have := value.toNat_lt
  simp [uint64?, ofUInt64, nat?]; omega

@[simp] theorem int64?_ofInt64 (value : Int64) : (ofInt64 value).int64? = some value := by
  rw [ofInt64, int64?, if_pos ⟨value.minValue_le_toInt, value.toInt_le⟩, Int64.ofInt_toInt]

def list? {α : Type} (read : Json → Option α) : Json → Option (List α)
  | .arr items => items.mapM read
  | _ => none

/-- All fields of a record, in the order of their names. -/
def record? (names : List String) : Json → Option (List Json)
  | .arr items => if items.length = names.length then some items else none
  | .obj fields => names.mapM (field? · (.obj fields))
  | _ => none

/-- The fields of a record that are there; an array may leave out the last ones. -/
def partialRecord? (names : List String) : Json → Option (List (Option Json))
  | .arr items =>
    if items.length ≤ names.length then some (names.mapIdx fun i _ => items[i]?) else none
  | .obj fields => some (names.map (field? · (.obj fields)))
  | _ => none

def single? : Json → Option (String × Json)
  | .obj fields =>
    match fields.reverse with
    | (name, value) :: others => if others.all (·.1 = name) then some (name, value) else none
    | [] => none
  | _ => none

def isNull : Json → Bool
  | .null => true
  | _ => false

def isEmptyObject : Json → Bool
  | .obj [] => true
  | _ => false

/-- The name of a choice: a text, or the only field of an object, which holds nothing. -/
def choice? (isNothing : Json → Bool) : Json → Option String
  | .str name => some name
  | value => do
    let (name, content) ← value.single?
    if isNothing content then some name else none

end FairDice.Json
