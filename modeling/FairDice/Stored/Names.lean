import FairDice.Mode
import FairDice.Rejection
import FairDice.Sign
import FairDice.Stored.Fields

/-!
# Values stored under their names

Signs, modes and kinds of rejection are stored so.
-/
namespace FairDice

namespace Sign

def name : Sign → String
  | .plus => "plus"
  | .minus => "minus"

def ofStoredName? : String → Option Sign
  | "plus" => some .plus
  | "minus" => some .minus
  | _ => none

def toJson (sign : Sign) : Json := .str sign.name

def ofJson? (value : Json) : Option Sign := do ofStoredName? (← value.choice? Json.isNull)

/-- A sign inside a term, where an empty object holds nothing too. -/
def ofTermJson? (value : Json) : Option Sign := do
  ofStoredName? (← value.choice? fun content => content.isNull || content.isEmptyObject)

@[simp] theorem ofJson?_toJson (sign : Sign) : ofJson? sign.toJson = some sign := by
  cases sign <;> rfl

@[simp] theorem ofTermJson?_toJson (sign : Sign) : ofTermJson? sign.toJson = some sign := by
  cases sign <;> rfl

end Sign

namespace Mode

def ofStoredName? (name : String) : Option Mode := all.find? (·.name = name)

def toJson (mode : Mode) : Json := .str mode.name

def ofJson? (value : Json) : Option Mode := do ofStoredName? (← value.choice? Json.isNull)

@[simp] theorem ofJson?_toJson (mode : Mode) : ofJson? mode.toJson = some mode := by
  cases mode <;> rfl

end Mode

namespace Rejection.Kind

def toJson (kind : Kind) : Json := .str kind.name

def ofJson? (value : Json) : Option Kind := do ofName? (← value.choice? Json.isNull)

@[simp] theorem ofJson?_toJson (kind : Kind) : ofJson? kind.toJson = some kind := by
  cases kind <;> rfl

end Rejection.Kind

/-- The stored details; the operand and the span are left out where there is none. -/
def Rejection.Details.toJson (details : Rejection.Details) : Json :=
  let token := details.token?.toList.map fun token => ("token", Json.str token)
  let span := details.span?.toList.map fun span =>
    ("span", Json.obj [("start", .int span.start), ("end", .int span.stop)])
  .obj ([("field", .str details.field), ("kind", details.kind.toJson)] ++ token ++ span)

end FairDice
