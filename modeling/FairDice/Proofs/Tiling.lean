import FairDice.Proofs.Cutting

/-!
# How the operands lie in their text

They lie one behind the other from the first byte of the text to the last, each
over exactly the characters it is written with. The text can be taken apart so in
one way at most, and in no way unless it is an expression.
-/
namespace FairDice

/-- Spans one behind the other from `start` to `stop`, none of them empty. -/
def Tiles : Nat → List Span → Nat → Prop
  | start, [], stop => start = stop
  | start, span :: spans, stop =>
    span.start = start ∧ span.start < span.stop ∧ Tiles span.stop spans stop

/-- The bytes of `s` in the span are the text `t`. -/
def Span.Holds (span : Span) (s t : List Char) : Prop :=
  ∃ front back, s = front ++ t ++ back ∧
    span.start = byteLength front ∧ span.stop = byteLength (front ++ t)

/-- Operands that a text can be taken apart into, without a gap or an overlap. -/
structure IsDecomposition (s : List Char) (ops : List Operand) : Prop where
  ne_nil : ops ≠ []
  tiles : Tiles 0 (ops.map Operand.span) (byteLength s)
  holds : ∀ o ∈ ops, o.span.Holds s o.text
  first : ∀ o ∈ ops, IsNumeral o.first
  sides : ∀ o ∈ ops, ∀ digits ∈ o.sides?, IsNumeral digits
  signed : ∀ o ∈ ops.tail, o.sign?.isSome

theorem byteLength_pos {s : List Char} (h : s ≠ []) : 0 < byteLength s := by
  obtain ⟨c, s, rfl⟩ := List.exists_cons_of_ne_nil h
  have := c.utf8Size_pos
  rw [byteLength_cons]
  omega

/-- Two ways of cutting a text at the same byte are the same. -/
theorem append_inj_of_byteLength {s t u v : List Char} (h : s ++ t = u ++ v)
    (hlength : byteLength s = byteLength u) : s = u ∧ t = v := by
  induction s generalizing u with
  | nil =>
    cases u with
    | nil => exact ⟨rfl, h⟩
    | cons c u =>
      have := byteLength_pos (List.cons_ne_nil c u)
      rw [byteLength_nil] at hlength
      omega
  | cons c s ih =>
    cases u with
    | nil =>
      have := byteLength_pos (List.cons_ne_nil c s)
      rw [byteLength_nil] at hlength
      omega
    | cons d u =>
      obtain ⟨rfl, htail⟩ := List.cons.inj h
      simp only [byteLength_cons, Nat.add_left_cancel_iff] at hlength
      obtain ⟨rfl, rfl⟩ := ih htail hlength
      exact ⟨rfl, rfl⟩

/-- Placed operands cover the text from end to end without a gap. -/
theorem tiles_placed {ws : List Written} (h : ∀ w ∈ ws, w.IsWellFormed) (start : Nat) :
    Tiles start ((placed start ws).map Operand.span) (start + byteLength (rowText ws)) := by
  induction ws generalizing start with
  | nil => rfl
  | cons w ws ih =>
    rw [List.forall_mem_cons] at h
    have hlength := byteLength_pos h.1.text_ne_nil
    simp only [placed_cons, List.map_cons, Tiles, Written.span_placedAt, true_and]
    refine ⟨by omega, ?_⟩
    rw [rowText_cons, byteLength_append, ← Nat.add_assoc]
    exact ih h.2 _

theorem holds_placed (ws : List Written) (front : List Char) :
    ∀ o ∈ placed (byteLength front) ws, o.span.Holds (front ++ rowText ws) o.text := by
  induction ws generalizing front with
  | nil => simp
  | cons w ws ih =>
    intro o ho
    rcases List.mem_cons.mp ho with rfl | ho
    · rw [Written.text_placedAt, Written.span_placedAt]
      exact ⟨front, rowText ws, by simp, rfl, by simp⟩
    · rw [← byteLength_append] at ho
      simpa [List.append_assoc] using ih (front ++ w.text) o ho

def Operand.written (o : Operand) : Written := ⟨o.sign?, o.first, o.sides?⟩

theorem Operand.placedAt_written (o : Operand) : o.written.placedAt o.start = o := rfl

theorem Operand.text_written (o : Operand) : o.written.text = o.text := by
  rw [← Written.text_placedAt o.written o.start, placedAt_written]

@[simp] theorem map_written_placed (start : Nat) (ws : List Written) :
    (placed start ws).map Operand.written = ws := by
  induction ws generalizing start with
  | nil => rfl
  | cons w ws ih => simp [ih, Operand.written, Written.placedAt]

/-- Operands that tile the rest of a text stand there in a row. -/
theorem eq_placed_of_tiles {ops : List Operand} (front : List Char) {rest : List Char}
    (htiles : Tiles (byteLength front) (ops.map Operand.span) (byteLength (front ++ rest)))
    (hholds : ∀ o ∈ ops, o.span.Holds (front ++ rest) o.text) :
    rest = rowText (ops.map Operand.written) ∧
      ops = placed (byteLength front) (ops.map Operand.written) := by
  induction ops generalizing front rest with
  | nil =>
    have hlength : byteLength front = byteLength (front ++ rest) := htiles
    obtain ⟨-, hrest⟩ := append_inj_of_byteLength (List.append_nil (front ++ rest)).symm hlength
    exact ⟨hrest, rfl⟩
  | cons o ops ih =>
    rw [List.forall_mem_cons] at hholds
    obtain ⟨hstart, -, htiles⟩ := htiles
    obtain ⟨before, back, h, hbefore, hstop⟩ := hholds.1
    rw [List.append_assoc] at h
    obtain ⟨rfl, rfl⟩ := append_inj_of_byteLength h (hstart.symm.trans hbefore)
    rw [hstop, ← List.append_assoc] at htiles
    rw [← List.append_assoc] at hholds
    obtain ⟨hback, hops⟩ := ih _ htiles hholds.2
    have hplaced : o.written.placedAt (byteLength front) = o := by
      rw [← hstart]
      rfl
    constructor
    · rw [List.map_cons, rowText_cons, o.text_written, ← hback]
    · rw [List.map_cons, placed_cons, hplaced, o.text_written, ← byteLength_append, ← hops]

/-- The decompositions of a text are the rows of operands that it is written with. -/
theorem isDecomposition_iff {s : List Char} {ops : List Operand} :
    IsDecomposition s ops ↔ ∃ ws, Writes ws s ∧ placed 0 ws = ops := by
  constructor
  · intro h
    obtain ⟨htext, hops⟩ := eq_placed_of_tiles [] h.tiles h.holds
    refine ⟨ops.map Operand.written, ⟨?_, ⟨?_, ?_⟩, htext.symm⟩, hops.symm⟩
    · simpa using h.ne_nil
    · intro w hw
      obtain ⟨o, ho, rfl⟩ := List.mem_map.mp hw
      exact ⟨h.first o ho, h.sides o ho⟩
    · intro w hw
      rw [← List.map_tail] at hw
      obtain ⟨o, ho, rfl⟩ := List.mem_map.mp hw
      exact h.signed o ho
  · rintro ⟨ws, ⟨hne, hrow, rfl⟩, rfl⟩
    have hwritten : ∀ o ∈ placed 0 ws, o.written ∈ ws := by
      intro o ho
      rw [← map_written_placed 0 ws]
      exact List.mem_map_of_mem ho
    have htail : ∀ o ∈ (placed 0 ws).tail, o.written ∈ ws.tail := by
      intro o ho
      rw [← map_written_placed 0 ws, ← List.map_tail]
      exact List.mem_map_of_mem ho
    refine ⟨?_, ?_, holds_placed ws [], ?_, ?_, ?_⟩
    · intro hnil
      have hlength := length_placed 0 ws
      rw [hnil, List.length_nil] at hlength
      exact hne (List.length_eq_zero_iff.mp hlength.symm)
    · have := tiles_placed hrow.wellFormed 0
      rwa [Nat.zero_add] at this
    · intro o ho
      exact (hrow.wellFormed _ (hwritten o ho)).first
    · intro o ho
      exact (hrow.wellFormed _ (hwritten o ho)).sides
    · intro o ho
      exact hrow.signed _ (htail o ho)

theorem Written.IsWellFormed.countP_isOperator {w : Written} (h : w.IsWellFormed) :
    w.text.countP isOperator = if w.sign?.isSome then 1 else 0 := by
  have hbody : w.body.countP isOperator = 0 :=
    List.countP_eq_zero.mpr fun c hc => by simp [h.isOperator_body c hc]
  cases hs : w.sign? <;> simp [Written.text, hs, hbody]

/-- A row has as many operators as it has signed operands. -/
theorem countP_isOperator_rowText {ws : List Written} (h : ∀ w ∈ ws, w.IsWellFormed) :
    (rowText ws).countP isOperator = ws.countP (·.sign?.isSome) := by
  induction ws with
  | nil => rfl
  | cons w ws ih =>
    rw [List.forall_mem_cons] at h
    rw [rowText_cons, List.countP_append, h.1.countP_isOperator, ih h.2, List.countP_cons,
      Nat.add_comm]

theorem Written.IsWellFormed.isOperator_head? {w : Written} (h : w.IsWellFormed) :
    w.text.head?.any isOperator = w.sign?.isSome := by
  obtain ⟨c, hc⟩ := Option.ne_none_iff_exists'.mp (mt List.head?_eq_none_iff.mp h.text_ne_nil)
  have hsign := h.ofOperator?_head?
  rw [hc, Option.bind_some] at hsign
  simp [hc, isOperator, hsign]

/-- There are as many operands as operators, and one more if no operator comes first. -/
theorem Writes.length_eq {ws : List Written} {s : List Char} (h : Writes ws s) :
    ws.length = s.countP isOperator + if s.head?.any isOperator then 0 else 1 := by
  obtain ⟨hne, hrow, rfl⟩ := h
  obtain ⟨w, ws, rfl⟩ := List.exists_cons_of_ne_nil hne
  have hw := hrow.wellFormed w (by simp)
  have hrest : ws.countP (·.sign?.isSome) = ws.length := List.countP_eq_length.mpr hrow.signed
  rw [countP_isOperator_rowText hrow.wellFormed, List.countP_cons, hrest, rowText_cons,
    List.head?_append_of_ne_nil _ hw.text_ne_nil, hw.isOperator_head?, List.length_cons]
  split <;> omega

end FairDice
