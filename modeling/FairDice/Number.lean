/-!
# Written numbers

A run of decimal digits has an exact value of any size; an expression accepts it
only up to `maxValue`. It is read with a 64-bit accumulator that gives up as soon
as the value read so far leaves 64 bits, so a long run of digits never costs more
than one word. Accepted numbers are counted up in 64 bits and kept in 32.
-/
namespace FairDice

/-- The largest number an expression may hold: `2^53 - 1`, up to which a double holds every integer. -/
def maxValue : Nat := 9007199254740991

def digitValue (c : Char) : Nat := c.toNat - '0'.toNat

/-- The exact value of a run of digits. -/
def decimalValue (digits : List Char) : Nat :=
  digits.foldl (fun value c => value * 10 + digitValue c) 0

@[simp] theorem decimalValue_nil : decimalValue [] = 0 := rfl

@[simp] theorem decimalValue_concat (digits : List Char) (c : Char) :
    decimalValue (digits ++ [c]) = decimalValue digits * 10 + digitValue c := by
  simp [decimalValue]

/-- One more digit in the accumulator, unless the value leaves 64 bits. -/
def pushDigit (value : UInt64) (c : Char) : Option UInt64 :=
  let next := value.toNat * 10 + digitValue c
  if next < UInt64.size then some (UInt64.ofNat next) else none

def readWord? (digits : List Char) : Option UInt64 :=
  digits.foldlM pushDigit 0

/-- The value of a run of digits, if it is at most `maxValue`. -/
def readNumber? (digits : List Char) : Option UInt64 :=
  (readWord? digits).filter (·.toNat ≤ maxValue)

/-- The sum, or the largest word where the sum leaves 64 bits. -/
def addSaturating (a b : UInt64) : UInt64 :=
  let sum := a.toNat + b.toNat
  if sum < UInt64.size then UInt64.ofNat sum else UInt64.ofNat (UInt64.size - 1)

def narrow? (value : UInt64) : Option UInt32 :=
  if value.toNat < UInt32.size then some value.toUInt32 else none

end FairDice
