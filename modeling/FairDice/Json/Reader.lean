import FairDice.Json.Outline
import FairDice.Json.Text
import FairDice.Json.Word

/-!
# Reading a JSON text, character by character

Inside a quoted text the characters gather until the closing quote; elsewhere
they gather into bare words that end at a blank or a punctuation character. A
character beyond U+FFFF may be written as the two halves of its UTF-16 form, and
a half alone is refused.
-/
namespace FairDice.Json

/-- What is being read: the characters so far, the last one in front. -/
inductive Scan where
  | between
  | word (done : List Char)
  /-- Inside quotes. Behind the first half of a character only the other half may come. -/
  | text (done : List Char) (half? : Option Nat)
  /-- Behind a backslash. -/
  | escape (done : List Char) (half? : Option Nat)
  /-- Behind a backslash and a `u`, with the digits so far. -/
  | code (done : List Char) (half? : Option Nat) (digits : List Nat)

structure Reading where
  scan : Scan
  outline : Outline

def Scan.unit (done : List Char) (half? : Option Nat) (unit : Nat) : Option Scan :=
  let isFirst := 0xD800 ≤ unit ∧ unit < 0xDC00
  let isSecond := 0xDC00 ≤ unit ∧ unit < 0xE000
  match half? with
  | none =>
    if isFirst then some (.text done (some unit))
    else if isSecond then none
    else some (.text (Char.ofNat unit :: done) none)
  | some half =>
    if isSecond then
      some (.text (Char.ofNat (0x10000 + (half - 0xD800) * 0x400 + (unit - 0xDC00)) :: done) none)
    else none

namespace Reading

def isBlank (c : Char) : Bool := [' ', '\t', '\n', '\r'].contains c

def isPunctuation (c : Char) : Bool := ['[', ']', '\x7b', '\x7d', ',', ':'].contains c

/-- The outline with the word that is being read, if any, put in. -/
def settle (r : Reading) : Option Outline :=
  match r.scan with
  | .between => some r.outline
  | .word done => do r.outline.scalar (← ofWord? done.reverse)
  | _ => none

def stepOutside (r : Reading) (c : Char) : Option Reading :=
  if isBlank c then return ⟨.between, ← r.settle⟩
  else if isPunctuation c then return ⟨.between, ← (← r.settle).punctuation c⟩
  else if c = '"' then return ⟨.text [] none, ← r.settle⟩
  else match r.scan with
    | .word done => some ⟨.word (c :: done), r.outline⟩
    | _ => some ⟨.word [c], r.outline⟩

def step (r : Reading) (c : Char) : Option Reading :=
  match r.scan with
  | .between | .word _ => r.stepOutside c
  | .text done half? =>
    if c = '\\' then some ⟨.escape done half?, r.outline⟩
    else if half?.isSome then none
    else if c = '"' then
      return ⟨.between, ← r.outline.quoted (String.ofList done.reverse)⟩
    else if c.toNat < 0x20 then none
    else some ⟨.text (c :: done) none, r.outline⟩
  | .escape done half? =>
    if c = 'u' then some ⟨.code done half? [], r.outline⟩
    else if half?.isSome then none
    else return ⟨.text ((← unescape? c) :: done) none, r.outline⟩
  | .code done half? digits => do
    let digits := digits ++ [← hexValue? c]
    if digits.length < 4 then return ⟨.code done half? digits, r.outline⟩
    else return ⟨← Scan.unit done half? (digits.foldl (· * 16 + ·) 0), r.outline⟩

end Reading

def read? (text : String) : Option Json := do
  let r ← text.toList.foldlM Reading.step ⟨.between, .needValue []⟩
  (← r.settle).value?

end FairDice.Json
