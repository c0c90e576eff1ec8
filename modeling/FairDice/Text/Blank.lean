/-!
# Blank characters

These are the 25 code points with the Unicode property `White_Space`. They mean
nothing in an expression and are dropped before it is read.
-/
namespace FairDice

/-- The ranges of code points with the property `White_Space`, both ends included. -/
def blankRanges : List (Nat × Nat) :=
  [(0x09, 0x0D), (0x20, 0x20), (0x85, 0x85), (0xA0, 0xA0), (0x1680, 0x1680), (0x2000, 0x200A),
    (0x2028, 0x2029), (0x202F, 0x202F), (0x205F, 0x205F), (0x3000, 0x3000)]

def isBlank (c : Char) : Bool :=
  blankRanges.any fun (first, last) => first ≤ c.toNat && c.toNat ≤ last

def stripBlanks (text : List Char) : List Char := text.filter (!isBlank ·)

@[simp] theorem stripBlanks_nil : stripBlanks [] = [] := rfl

@[simp] theorem stripBlanks_append (s t : List Char) :
    stripBlanks (s ++ t) = stripBlanks s ++ stripBlanks t := List.filter_append ..

@[simp] theorem stripBlanks_stripBlanks (s : List Char) :
    stripBlanks (stripBlanks s) = stripBlanks s := by
  simp [stripBlanks]

theorem isBlank_of_mem_stripBlanks {s : List Char} {c : Char} (h : c ∈ stripBlanks s) :
    isBlank c = false := by
  simpa using (List.mem_filter.mp h).2

end FairDice
