/-!
# A fair die from random 32-bit words

The product of a word and the number of sides, taken as a fixed-point number, has
the face in front of the point. Some words are passed over, by what stands behind
the point, so that every face comes from the same number of words: the largest
power of two that fits.
-/
namespace FairDice

/-- How many words lead to each face of a die. -/
def wordsPerFace (sides : UInt32) : Nat := 1 <<< (31 - sides.toNat.log2)

/-- The face a word leads to, if it is not passed over. -/
def faceOfWord? (sides word : UInt32) : Option UInt32 :=
  let product := word.toNat * sides.toNat
  if product % UInt32.size < sides.toNat * wordsPerFace sides then
    some (UInt32.ofNat (product / UInt32.size + 1))
  else none

/-- The face of the first word that is not passed over, and the words behind it. -/
def rollWords? (sides : UInt32) : List UInt32 → Option (UInt32 × List UInt32)
  | [] => none
  | word :: words =>
    match faceOfWord? sides word with
    | some face => some (face, words)
    | none => rollWords? sides words

end FairDice
