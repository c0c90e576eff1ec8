import FairDice.Text.Span
import Mathlib.Data.List.Basic

/-!
# Readers put together from smaller ones

They are put together one after the other, one or else the other, one or nothing,
one as often as it succeeds. Of a choice the first that succeeds counts, a reader
that fails takes nothing, and no choice is taken back. What a reader takes is
said by the text between the places before and behind it.
-/
namespace FairDice

/-- A place in a text: the bytes in front of it, and what is still to be read. -/
structure Cursor where
  offset : Nat
  rest : List Char

/-- The text `s` lies between two places. -/
structure Advances (cursor : Cursor) (s : List Char) (next : Cursor) : Prop where
  rest : cursor.rest = s ++ next.rest
  offset : next.offset = cursor.offset + byteLength s

theorem advances_iff {cursor next : Cursor} {s : List Char} :
    Advances cursor s next ↔
      cursor.rest = s ++ next.rest ∧ next.offset = cursor.offset + byteLength s :=
  ⟨fun ⟨hrest, hoffset⟩ => ⟨hrest, hoffset⟩, fun ⟨hrest, hoffset⟩ => ⟨hrest, hoffset⟩⟩

theorem advances_nil {cursor next : Cursor} : Advances cursor [] next ↔ next = cursor := by
  constructor
  · rintro ⟨hrest, hoffset⟩
    cases cursor
    cases next
    simp_all
  · rintro rfl
    exact ⟨rfl, rfl⟩

theorem Advances.append {cursor middle next : Cursor} {s t : List Char}
    (hs : Advances cursor s middle) (ht : Advances middle t next) :
    Advances cursor (s ++ t) next := by
  constructor
  · rw [hs.rest, ht.rest, List.append_assoc]
  · rw [ht.offset, hs.offset, byteLength_append, Nat.add_assoc]

/-- A text between two places can be gone through in two parts. -/
theorem Advances.split {cursor next : Cursor} {s t : List Char}
    (h : Advances cursor (s ++ t) next) :
    ∃ middle, Advances cursor s middle ∧ Advances middle t next := by
  refine ⟨⟨cursor.offset + byteLength s, t ++ next.rest⟩, ⟨?_, rfl⟩, ⟨rfl, ?_⟩⟩
  · rw [h.rest, List.append_assoc]
  · rw [h.offset, byteLength_append, Nat.add_assoc]

/-- A reader reads something and goes on behind it, or it fails. -/
abbrev Reader := StateT Cursor Option

namespace Reader

variable {α : Type}

def char (fits : Char → Bool) : Reader Char := fun cursor =>
  match cursor.rest with
  | [] => none
  | c :: rest => if fits c then some (c, ⟨cursor.offset + c.utf8Size, rest⟩) else none

def just (c : Char) : Reader Char := char (· == c)

def orNot (reader : Reader α) : Reader (Option α) := some <$> reader <|> pure none

/-- All that the reader reads one after the other, until it fails or makes no headway. -/
def repeated (reader : Reader α) : Reader (List α) := fun cursor =>
  match reader cursor with
  | none => some ([], cursor)
  | some (a, next) =>
    if next.rest.length < cursor.rest.length then
      (repeated reader next).map fun (as, last) => (a :: as, last)
    else some ([a], next)
termination_by cursor => cursor.rest.length

def endOfText : Reader Unit := fun cursor =>
  if cursor.rest.isEmpty then some ((), cursor) else none

theorem run_char_nil (fits : Char → Bool) (offset : Nat) :
    (char fits).run ⟨offset, []⟩ = none := rfl

theorem run_char_cons (fits : Char → Bool) (offset : Nat) (c : Char) (s : List Char) :
    (char fits).run ⟨offset, c :: s⟩ =
      if fits c then some (c, ⟨offset + c.utf8Size, s⟩) else none := rfl

/-- The second reader has its turn where the first fails, from the same place. -/
theorem run_orElse (reader other : Reader α) (cursor : Cursor) :
    (reader <|> other).run cursor = (reader.run cursor).or (other.run cursor) := by
  have h : (reader <|> other).run cursor = (reader.run cursor <|> other.run cursor) := rfl
  rw [h]
  cases reader.run cursor <;> rfl

/-- Where the reader fails, the reading goes on from the same place. -/
theorem run_orNot (reader : Reader α) (cursor : Cursor) :
    (orNot reader).run cursor =
      ((reader.run cursor).map fun (a, next) => (some a, next)).or (some (none, cursor)) := by
  rw [orNot, run_orElse, StateT.run_map]
  rfl

theorem run_repeated (reader : Reader α) (cursor : Cursor) :
    (repeated reader).run cursor =
      match reader.run cursor with
      | none => some ([], cursor)
      | some (a, next) =>
        if next.rest.length < cursor.rest.length then
          ((repeated reader).run next).map fun (as, last) => (a :: as, last)
        else some ([a], next) := by
  rw [StateT.run, repeated]
  rfl

/-- A repetition over single characters is greedy. -/
theorem run_repeated_char (fits : Char → Bool) (offset : Nat) (s : List Char) :
    (repeated (char fits)).run ⟨offset, s⟩ =
      some (s.takeWhile fits, ⟨offset + byteLength (s.takeWhile fits), s.dropWhile fits⟩) := by
  induction s generalizing offset with
  | nil => rw [run_repeated, run_char_nil]; rfl
  | cons c s ih =>
    rw [run_repeated, run_char_cons]
    by_cases hc : fits c
    · simp [hc, ih, Nat.add_assoc]
    · simp [hc]

theorem run_just_eq_some_iff {c d : Char} {cursor next : Cursor} :
    (just c).run cursor = some (d, next) ↔ d = c ∧ Advances cursor [c] next := by
  obtain ⟨offset, rest⟩ := cursor
  obtain ⟨nextOffset, nextRest⟩ := next
  cases rest with
  | nil => simp [just, run_char_nil, advances_iff]
  | cons e rest =>
    rw [just, run_char_cons, advances_iff]
    constructor
    · intro h
      split at h
      · next he =>
        obtain rfl := beq_iff_eq.mp he
        cases h
        exact ⟨rfl, rfl, by simp⟩
      · cases h
    · rintro ⟨rfl, hrest, hoffset⟩
      obtain ⟨rfl, rfl⟩ := List.cons.inj hrest
      simp_all

theorem run_orNot_eq_some_iff {reader : Reader α} {cursor next : Cursor} {a? : Option α} :
    (orNot reader).run cursor = some (a?, next) ↔
      (∃ a, a? = some a ∧ reader.run cursor = some (a, next)) ∨
        (a? = none ∧ reader.run cursor = none ∧ next = cursor) := by
  rw [run_orNot]
  cases h : reader.run cursor with
  | none => simp [eq_comm]
  | some result =>
    obtain ⟨a, middle⟩ := result
    simp [eq_comm]

/-- The text between two places, cut out of the text from the first on. -/
theorem take_of_advances {cursor next : Cursor} {s : List Char} (h : Advances cursor s next) :
    cursor.rest.take (cursor.rest.length - next.rest.length) = s := by
  simp [h.rest]

theorem run_repeated_eq_some {reader : Reader α} {cursor last : Cursor} {as : List α}
    (h : (repeated reader).run cursor = some (as, last)) :
    (reader.run cursor = none ∧ as = [] ∧ last = cursor) ∨
      ∃ a next, reader.run cursor = some (a, next) ∧
        ((∃ rest, as = a :: rest ∧ (repeated reader).run next = some (rest, last)) ∨
          (cursor.rest.length ≤ next.rest.length ∧ as = [a] ∧ last = next)) := by
  rw [run_repeated] at h
  cases hrun : reader.run cursor with
  | none =>
    rw [hrun] at h
    cases h
    exact .inl ⟨rfl, rfl, rfl⟩
  | some result =>
    obtain ⟨a, next⟩ := result
    simp only [hrun] at h
    refine .inr ⟨a, next, rfl, ?_⟩
    split at h
    · obtain ⟨⟨rest, end'⟩, hrest, h⟩ := Option.map_eq_some_iff.mp h
      cases h
      exact .inl ⟨rest, rfl, hrest⟩
    · next hle =>
      cases h
      exact .inr ⟨Nat.le_of_not_lt hle, rfl, rfl⟩

theorem length_lt_of_advances {cursor next : Cursor} {s : List Char} (h : Advances cursor s next)
    (hs : s ≠ []) : next.rest.length < cursor.rest.length := by
  have := List.length_pos_iff.mpr hs
  rw [h.rest, List.length_append]
  omega

theorem run_endOfText_eq_some_iff {cursor next : Cursor} :
    endOfText.run cursor = some ((), next) ↔ next = cursor ∧ cursor.rest = [] := by
  have hrun : endOfText.run cursor = if cursor.rest.isEmpty then some ((), cursor) else none := rfl
  rw [hrun]
  cases cursor.rest <;> simp [eq_comm]

end Reader
end FairDice
