import FairDice.Proofs.Cutting

/-!
# How far a text goes on like an expression

A reading gets through exactly the texts that some expression begins with, so
that the misfit of any other text is where its longest such beginning ends. All
of that beginning is ASCII.
-/
namespace FairDice

/-- Some expression begins with the text. -/
def Viable (s : List Char) : Prop := ∃ t, s ++ t ∈ Grammar.expression

/-- Of all that `s` begins with, `front` is the longest that an expression begins with, too. -/
structure IsLongestViable (front s : List Char) : Prop where
  begins : front <+: s
  viable : Viable front
  longest : ∀ other, other <+: s → Viable other → other.length ≤ front.length

namespace Place

/-- Something that may follow up to the end of an expression. -/
def completion (p : Place) : List Char := if p.isEnd then [] else ['1']

/-- From every place a text can be completed. -/
theorem after?_completion (p : Place) : (p.after? p.completion).any isEnd := by
  cases p <;> rfl

theorem isSome_after?_of_append {p : Place} {s t : List Char} (h : (p.after? (s ++ t)).isSome) :
    (p.after? s).isSome := by
  rw [after?_append] at h
  exact Option.isSome_of_isSome_bind h

/-- A text can be completed to an expression exactly where it can be read. -/
theorem viable_iff {s : List Char} : Viable s ↔ (Place.start.after? s).isSome := by
  have hmem (u : List Char) : u ∈ Grammar.expression ↔ (Place.start.after? u).any isEnd := by
    rw [Grammar.mem_expression_iff, after?_any_isEnd_iff]
  constructor
  · rintro ⟨t, ht⟩
    obtain ⟨q, hq, -⟩ := (Option.any_eq_true _ _).mp ((hmem _).mp ht)
    exact isSome_after?_of_append (Option.isSome_iff_exists.mpr ⟨q, hq⟩)
  · intro h
    obtain ⟨p, hp⟩ := Option.isSome_iff_exists.mp h
    refine ⟨p.completion, (hmem _).mpr ?_⟩
    rw [after?_append, hp]
    exact p.after?_completion

/-- Up to where a reading gets through, it has no misfit. -/
theorem misfit?_append {p q : Place} {s : List Char} (h : p.after? s = some q) (offset : Nat)
    (t : List Char) : p.misfit? offset (s ++ t) = q.misfit? (offset + byteLength s) t := by
  induction s generalizing p offset with
  | nil =>
    cases h
    rfl
  | cons c s ih =>
    obtain ⟨middle, hnext, hrest⟩ := Option.bind_eq_some_iff.mp h
    rw [List.cons_append, misfit?, hnext, byteLength_cons, ← Nat.add_assoc]
    exact ih hrest _

/-- A text cannot be read on from a place: it is over too early, or its first character is wrong. -/
def IsStuck (p : Place) : List Char → Prop
  | [] => p.isEnd = false
  | c :: _ => p.next c = none

/-- The misfit is where the longest text that can be read is stuck. -/
theorem misfit?_eq_some_iff {p : Place} {offset : Nat} {s : List Char} {misfit : Misfit} :
    p.misfit? offset s = some misfit ↔
      ∃ front rest q, s = front ++ rest ∧ p.after? front = some q ∧ q.IsStuck rest ∧
        misfit = ⟨q, rest.head?, offset + byteLength front⟩ := by
  constructor
  · intro h
    induction s generalizing p offset with
    | nil =>
      rw [misfit?] at h
      split at h
      · cases h
      · next hend =>
        cases h
        exact ⟨[], [], p, rfl, rfl, Bool.eq_false_iff.mpr hend, rfl⟩
    | cons c s ih =>
      rw [misfit?] at h
      split at h
      · next hnext =>
        cases h
        exact ⟨[], c :: s, p, rfl, rfl, hnext, rfl⟩
      · next middle hnext =>
        obtain ⟨front, rest, q, rfl, hq, hstuck, rfl⟩ := ih h
        refine ⟨c :: front, rest, q, rfl, ?_, hstuck, ?_⟩
        · rw [after?_cons, hnext, Option.bind_some, hq]
        · rw [byteLength_cons, Nat.add_assoc]
  · rintro ⟨front, rest, q, rfl, hq, hstuck, rfl⟩
    rw [misfit?_append hq]
    cases rest with
    | nil =>
      have hend : q.isEnd = false := hstuck
      simp [misfit?, hend]
    | cons c rest =>
      have hnext : q.next c = none := hstuck
      simp [misfit?, hnext]

/-- Behind where a reading is stuck no expression goes on. -/
theorem isLongestViable_of_isStuck {front rest : List Char} {q : Place}
    (hq : Place.start.after? front = some q) (hstuck : q.IsStuck rest) :
    IsLongestViable front (front ++ rest) := by
  refine ⟨List.prefix_append .., viable_iff.mpr (by simp [hq]), ?_⟩
  intro other hother hviable
  by_contra hlt
  have hfront : front <+: other :=
    List.prefix_of_prefix_length_le (List.prefix_append ..) hother (by omega)
  obtain ⟨more, rfl⟩ := hfront
  cases more with
  | nil => simp at hlt
  | cons c more =>
    obtain ⟨behind, hbehind⟩ := hother
    rw [List.append_assoc, List.append_cancel_left_eq, List.cons_append] at hbehind
    subst hbehind
    have hnext : q.next c = none := hstuck
    have hsome := viable_iff.mp hviable
    rw [after?_append, hq, Option.bind_some, after?_cons, hnext] at hsome
    cases hsome

/-- Every character that is read is ASCII. -/
theorem toNat_lt_of_next {p q : Place} {c : Char} (h : p.next c = some q) : c.toNat < 128 := by
  rcases next_cases h with ⟨hdigit, -⟩ | ⟨rfl, -⟩ | ⟨sign, rfl, -⟩
  · have hle : c ≤ '9' := by simp_all [Char.isDigit, Char.le_def]
    have hlt : '9'.toNat < 128 := by decide
    exact Nat.lt_of_le_of_lt hle hlt
  · decide
  · cases sign <;> decide

/-- All that a reading gets through is ASCII. -/
theorem toNat_lt_of_after? {p q : Place} {s : List Char} (h : p.after? s = some q) :
    ∀ c ∈ s, c.toNat < 128 := by
  induction s generalizing p with
  | nil => simp
  | cons c s ih =>
    obtain ⟨middle, hnext, hrest⟩ := Option.bind_eq_some_iff.mp h
    exact List.forall_mem_cons.mpr ⟨toNat_lt_of_next hnext, ih hrest⟩

end Place

theorem utf8Size_eq_one {c : Char} (h : c.toNat < 128) : c.utf8Size = 1 := by
  rw [Char.utf8Size_eq_one_iff]
  exact Nat.le_of_lt_succ h

/-- In ASCII, bytes and characters are the same. -/
theorem byteLength_eq_length {s : List Char} (h : ∀ c ∈ s, c.toNat < 128) :
    byteLength s = s.length := by
  induction s with
  | nil => rfl
  | cons c s ih =>
    rw [List.forall_mem_cons] at h
    rw [byteLength_cons, utf8Size_eq_one h.1, ih h.2, List.length_cons, Nat.add_comm]

theorem charactersIn_append {s : List Char} (h : ∀ c ∈ s, c.toNat < 128) (t : List Char) :
    charactersIn s.length (s ++ t) = s.length := by
  induction s with
  | nil => cases t <;> rfl
  | cons c s ih =>
    rw [List.forall_mem_cons] at h
    simp [charactersIn, utf8Size_eq_one h.1, ih h.2]

end FairDice
