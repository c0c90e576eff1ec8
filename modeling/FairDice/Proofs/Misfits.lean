import FairDice.Proofs.Parsing
import FairDice.Proofs.Reporters
import FairDice.Proofs.Viable

/-!
# The error of a text that is no expression

Reading by descent gives an operator or a `d` back where no digits follow it, and
goes on or stops there, but what it reports is its furthest failure: the misfit,
with all that would have fitted at it. The longest beginning of the text that any
expression begins with ends there.
-/
namespace FairDice

/-- What would have fitted at a place, in the order in which it is tried. -/
def Place.wanted : Place → List Expectation
  | .start => [.character '+', .character '-']
  | .operator | .die => []
  | .first => [.character 'd', .character '+', .character '-', .endOfText]
  | .sides => [.character '+', .character '-', .endOfText]

/-- What is tried at a place before an operator is. -/
def Place.tried : Place → List Expectation
  | .first => [.character 'd']
  | .start | .operator | .die | .sides => []

/-- The expectations at a place read as one text are the one the place gives. -/
theorem Place.anyOf_wanted (p : Place) : Expectation.anyOf p.wanted = p.expected := by
  cases p <;> decide

namespace Misfit

def failure (m : Misfit) : Failure := ⟨m.offset, m.found, m.place.wanted⟩

theorem reason_failure (m : Misfit) : m.failure.reason = m.reason := by
  rw [Failure.reason, failure, m.place.anyOf_wanted, reason]

theorem span_failure (m : Misfit) : m.failure.span = m.span := rfl

end Misfit

namespace Reporter

/-- Where reading may stand behind an operand, and what has failed then. A `d` without digits behind
it has been read and given back: the failure is further than the place. -/
inductive Behind : Place → Cursor → Option Failure → Prop
  | operand {q : Place} {offset : Nat} {rest : List Char} (isEnd : q.isEnd)
      (stuck : ∀ c ∈ rest.head?, isOperator c = false → q.next c = none) :
      Behind q ⟨offset, rest⟩ (some ⟨offset, rest.head?, q.tried⟩)
  | die {offset : Nat} {rest : List Char} (digit : ∀ c ∈ rest.head?, c.isDigit = false) :
      Behind .first ⟨offset, 'd' :: rest⟩ (some ⟨offset + 'd'.utf8Size, rest.head?, []⟩)

theorem isDigit_head?_dropWhile (s : List Char) :
    ∀ c ∈ (s.dropWhile Char.isDigit).head?, c.isDigit = false := by
  intro c hc
  have h := List.head?_dropWhile_not Char.isDigit s
  rw [Option.mem_def] at hc
  simpa [hc] using h

theorem run_die (offset : Nat) (s : List Char) :
    Reader.die.run ⟨offset, s⟩ =
      if s.head? = some 'd' then Reader.digits.run ⟨offset + 'd'.utf8Size, s.tail⟩ else none := by
  rw [Reader.die, StateT.run_bind, run_just]
  split <;> rfl

theorem run_orNot_of_eq_none {α : Type} {x : Reader α} {cursor : Cursor}
    (h : x.run cursor = none) : (Reader.orNot x).run cursor = some (none, cursor) := by
  rw [Reader.run_orNot, h]
  rfl

theorem run_orNot_of_eq_some {α : Type} {x : Reader α} {cursor next : Cursor} {a : α}
    (h : x.run cursor = some (a, next)) : (Reader.orNot x).run cursor = some (some a, next) := by
  rw [Reader.run_orNot, h]
  rfl

theorem run_digits_of_ne_nil {offset : Nat} {s : List Char} (h : s.takeWhile Char.isDigit ≠ []) :
    Reader.digits.run ⟨offset, s⟩ = some (s.takeWhile Char.isDigit,
      ⟨offset + byteLength (s.takeWhile Char.isDigit), s.dropWhile Char.isDigit⟩) := by
  rw [Reader.run_digits, if_neg h]

theorem isNumeral_takeWhile {s : List Char} (h : s.takeWhile Char.isDigit ≠ []) :
    IsNumeral (s.takeWhile Char.isDigit) :=
  ⟨h, List.all_eq_true.mp List.all_takeWhile⟩

/-- Behind digits that are read from a place within all that has failed, only their end counts. -/
theorem furthest_digits_of_ne_nil {offset : Nat} {s : List Char} {seen : Option Failure}
    (h : s.takeWhile Char.isDigit ≠ []) (hseen : ∀ f ∈ seen, f.offset ≤ offset) :
    digits.furthest ⟨offset, s⟩ seen =
      some ⟨offset + byteLength (s.takeWhile Char.isDigit), (s.dropWhile Char.isDigit).head?,
        []⟩ := by
  have hpos := byteLength_pos h
  rw [furthest_digits, Failure.note_of_lt]
  intro f hf
  have hle := hseen f hf
  show f.offset < offset + byteLength (s.takeWhile Char.isDigit)
  omega

theorem head?_of_takeWhile_eq_nil {s : List Char} (h : s.takeWhile Char.isDigit = []) :
    ∀ c ∈ s.head?, c.isDigit = false := by
  cases s with
  | nil => simp
  | cons c s => simpa [List.takeWhile_cons] using h

/-- Behind the first digits a `d` with digits is read, or nothing is. -/
theorem exists_behind_first (offset : Nat) {s : List Char}
    (hs : ∀ c ∈ s.head?, c.isDigit = false) :
    ∃ sides? next q, (Reader.orNot Reader.die).run ⟨offset, s⟩ = some (sides?, next) ∧
      Behind q next (die.furthest ⟨offset, s⟩ (some ⟨offset, s.head?, []⟩)) ∧
      Place.first.misfit? offset s = q.misfit? next.offset next.rest ∧
      next.rest.length ≤ s.length := by
  by_cases hd : s.head? = some 'd'
  · obtain ⟨s, rfl⟩ := List.head?_eq_some_iff.mp hd
    have hpos := 'd'.utf8Size_pos
    have hmisfit : Place.first.misfit? offset ('d' :: s) =
        Place.die.misfit? (offset + 'd'.utf8Size) s := rfl
    have hdie : Reader.die.run ⟨offset, 'd' :: s⟩ =
        Reader.digits.run ⟨offset + 'd'.utf8Size, s⟩ := run_die ..
    rw [furthest_die, if_pos hd]
    by_cases hdigits : s.takeWhile Char.isDigit = []
    · have hnone : Reader.die.run ⟨offset, 'd' :: s⟩ = none := by
        rw [hdie, Reader.run_digits, if_pos hdigits]
      have hfurthest : digits.furthest ⟨offset + 'd'.utf8Size, s⟩ (some ⟨offset, some 'd', []⟩) =
          some ⟨offset + 'd'.utf8Size, s.head?, []⟩ := by
        have hdrop := List.takeWhile_append_dropWhile (p := Char.isDigit) (l := s)
        rw [hdigits, List.nil_append] at hdrop
        rw [furthest_digits, hdigits, hdrop, Failure.note_of_lt (by simp [hpos])]
        rfl
      refine ⟨none, _, _, run_orNot_of_eq_none hnone, ?_, rfl, Nat.le_refl _⟩
      rw [List.tail_cons, List.head?_cons, hfurthest]
      exact .die (head?_of_takeWhile_eq_nil hdigits)
    · have hafter : Place.die.after? (s.takeWhile Char.isDigit) = some .sides :=
        Place.after?_numeral .die (isNumeral_takeWhile hdigits)
      have hsome := hdie.trans (run_digits_of_ne_nil hdigits)
      refine ⟨_, _, .sides, run_orNot_of_eq_some hsome, ?_, ?_, ?_⟩
      · rw [List.tail_cons, furthest_digits_of_ne_nil hdigits (by simp)]
        refine .operand rfl fun c hc hoperator => ?_
        simp [Place.next, isDigit_head?_dropWhile s c hc, hoperator]
      · rw [hmisfit, ← Place.misfit?_append hafter, List.takeWhile_append_dropWhile]
      · have hle := (List.dropWhile_sublist Char.isDigit (l := s)).length_le
        exact Nat.le_succ_of_le hle
  · have hnone : Reader.die.run ⟨offset, s⟩ = none := by rw [run_die, if_neg hd]
    refine ⟨none, _, .first, run_orNot_of_eq_none hnone, ?_, rfl, Nat.le_refl _⟩
    rw [furthest_die, if_neg hd, Failure.note_same]
    refine .operand rfl fun c hc hoperator => ?_
    have hne : c ≠ 'd' := fun h => hd (h ▸ hc)
    simp [Place.next, hs c hc, hne, hoperator]

/-- An operand that begins with a digit is read, and the misfit is behind it. -/
theorem exists_behind {p : Place} (hp : p.afterDigit = .first) {offset : Nat} {s : List Char}
    {seen : Option Failure} (hseen : ∀ f ∈ seen, f.offset ≤ offset)
    (hs : s.takeWhile Char.isDigit ≠ []) :
    ∃ first afterFirst sides? next q,
      Reader.digits.run ⟨offset, s⟩ = some (first, afterFirst) ∧
      (Reader.orNot Reader.die).run afterFirst = some (sides?, next) ∧
      Behind q next (die.furthest afterFirst (digits.furthest ⟨offset, s⟩ seen)) ∧
      p.misfit? offset s = q.misfit? next.offset next.rest ∧
      next.rest.length < s.length := by
  have hafter : p.after? (s.takeWhile Char.isDigit) = some .first := by
    rw [Place.after?_numeral p (isNumeral_takeWhile hs), hp]
  have hmisfit := Place.misfit?_append hafter offset (s.dropWhile Char.isDigit)
  rw [List.takeWhile_append_dropWhile] at hmisfit
  have hlength : (s.dropWhile Char.isDigit).length < s.length := by
    have hpos := List.length_pos_iff.mpr hs
    have hsum := congrArg List.length (List.takeWhile_append_dropWhile (p := Char.isDigit) (l := s))
    rw [List.length_append] at hsum
    omega
  obtain ⟨sides?, next, q, hdie, hbehind, hrest, hle⟩ :=
    exists_behind_first (offset + byteLength (s.takeWhile Char.isDigit))
      (isDigit_head?_dropWhile s)
  refine ⟨_, _, sides?, next, q, run_digits_of_ne_nil hs, hdie, ?_, hmisfit.trans hrest, by omega⟩
  rwa [furthest_digits_of_ne_nil hs hseen]

/-- Where no digit follows a place that needs one, that is the misfit, and it is the furthest. -/
theorem misfit?_of_takeWhile_eq_nil {p : Place} (hp : p = .start ∨ p = .operator) {offset : Nat}
    {s : List Char} (hs : s.takeWhile Char.isDigit = [])
    (hoperator : p = .start → ∀ c ∈ s.head?, isOperator c = false) :
    p.misfit? offset s = some ⟨p, s.head?, offset⟩ := by
  have hdigit := head?_of_takeWhile_eq_nil hs
  cases s with
  | nil => rcases hp with rfl | rfl <;> rfl
  | cons c s =>
    have hc : c.isDigit = false := hdigit c rfl
    have hnext : p.next c = none := by
      rcases hp with rfl | rfl
      · simp [Place.next, hc, hoperator rfl c rfl]
      · simp [Place.next, hc]
    rw [Place.misfit?, hnext]
    rfl

abbrev signed : Reporter Token := token (some <$> operator)

theorem reports_signed : Reports signed (Reader.token (some <$> Reader.operator)) :=
  .token (.map some .operator)

/-- All operands but the first, up to the end of the text. -/
def closing : Reporter Unit := do
  let _ ← repeated signed
  endOfText

/-- Behind the first operand, the furthest failure is that of the signed operands and of the end of
the text. -/
theorem furthest_closing (cursor : Cursor) (seen : Option Failure) :
    closing.furthest cursor seen =
      match (Reader.token (some <$> Reader.operator)).run cursor with
      | none => endOfText.furthest cursor (signed.furthest cursor seen)
      | some (_, next) =>
        if next.rest.length < cursor.rest.length then
          closing.furthest next (signed.furthest cursor seen)
        else endOfText.furthest next (signed.furthest cursor seen) := by
  have hall := reports_signed.repeated
  rw [closing, furthest_bind hall, Reader.run_repeated, furthest_repeated reports_signed]
  cases (Reader.token (some <$> Reader.operator)).run cursor with
  | none => rfl
  | some pair =>
    obtain ⟨t, next⟩ := pair
    by_cases hlt : next.rest.length < cursor.rest.length
    · simp only [hlt, if_true, furthest_bind hall]
      cases (Reader.repeated (Reader.token (some <$> Reader.operator))).run next <;> rfl
    · simp only [hlt, if_false]

/-- The furthest failure is that of the first operand, or of what follows it. -/
theorem furthest_tokens (cursor : Cursor) (seen : Option Failure) :
    tokens.furthest cursor seen =
      match (Reader.token (Reader.orNot Reader.operator)).run cursor with
      | none => (token (orNot operator)).furthest cursor seen
      | some (_, next) =>
        closing.furthest next ((token (orNot operator)).furthest cursor seen) := by
  rw [tokens, furthest_bind (.token (.orNot .operator))]
  cases (Reader.token (Reader.orNot Reader.operator)).run cursor with
  | none => rfl
  | some pair =>
    obtain ⟨t, next⟩ := pair
    have hall := reports_signed.repeated
    simp only [closing, furthest_bind hall]
    cases (Reader.repeated (Reader.token (some <$> Reader.operator))).run next with
    | none => rfl
    | some pair =>
      obtain ⟨ts, last⟩ := pair
      simp only [furthest_bind Reports.endOfText]
      cases Reader.endOfText.run last <;> rfl

/-- What has failed up to a place is not further than the place. -/
def NotBeyond (offset : Nat) (seen : Option Failure) : Prop := ∀ f ∈ seen, f.offset ≤ offset

theorem notBeyond_note {offset : Nat} {seen : Option Failure} {new : Failure}
    (h : NotBeyond offset seen) (hnew : new.offset ≤ offset) :
    NotBeyond offset (Failure.note seen new) := by
  cases seen with
  | none => simpa [NotBeyond, Failure.note] using hnew
  | some old =>
    have hold : old.offset ≤ offset := h old rfl
    intro f hf
    obtain rfl : old.merge new = f := Option.some.inj hf
    unfold Failure.merge
    split
    · exact hnew
    · split <;> exact hold

theorem NotBeyond.mono {offset offset' : Nat} {seen : Option Failure} (h : NotBeyond offset seen)
    (hle : offset ≤ offset') : NotBeyond offset' seen := fun f hf => (h f hf).trans hle

/-- A failure beyond all others replaces them. -/
theorem NotBeyond.note_eq {offset : Nat} {seen : Option Failure} (h : NotBeyond offset seen)
    {new : Failure} (hlt : offset < new.offset) : Failure.note seen new = some new :=
  Failure.note_of_lt fun f hf => Nat.lt_of_le_of_lt (h f hf) hlt

theorem notBeyond_operator {sign : Sign} {offset : Nat} {s : List Char} {seen : Option Failure}
    (h : NotBeyond offset seen) :
    NotBeyond offset (operator.furthest ⟨offset, sign.symbol :: s⟩ seen) := by
  rw [furthest_operator_symbol]
  cases sign with
  | plus => exact h
  | minus => exact notBeyond_note h (Nat.le_refl _)

theorem run_token_eq_none {y : Reader (Option Sign)} {cursor : Cursor}
    (h : ∀ sign? afterSign, y.run cursor = some (sign?, afterSign) →
      Reader.digits.run afterSign = none) : (Reader.token y).run cursor = none := by
  by_contra hne
  obtain ⟨⟨t, next⟩, hrun⟩ := Option.ne_none_iff_exists'.mp hne
  obtain ⟨_, _, _, _, _, hsign, hfirst, -⟩ := Reader.run_token_eq_some_iff.mp hrun
  rw [h _ _ hsign] at hfirst
  cases hfirst

/-- An operand without a digit where its digits should begin is not read, and that is the misfit.
Otherwise it is read, and the misfit is behind it. -/
theorem token_cases {p : Place} {x : Reporter (Option Sign)} {y : Reader (Option Sign)}
    {cursor : Cursor} {seen : Option Failure} {sign? : Option Sign} {offset : Nat} {s : List Char}
    {m : Misfit} (hp : p = .start ∨ p = .operator) (h : Reports x y)
    (hsign : y.run cursor = some (sign?, ⟨offset, s⟩))
    (hoperator : p = .start → ∀ c ∈ s.head?, isOperator c = false)
    (hseen : NotBeyond offset (x.furthest cursor seen))
    (hwanted : Failure.note (x.furthest cursor seen) ⟨offset, s.head?, []⟩ =
      some ⟨offset, s.head?, p.wanted⟩)
    (hm : p.misfit? offset s = some m) :
    ((Reader.token y).run cursor = none ∧ (token x).furthest cursor seen = some m.failure ∧
        m.offset = offset) ∨
      ∃ t next q, (Reader.token y).run cursor = some (t, next) ∧
        Behind q next ((token x).furthest cursor seen) ∧
        q.misfit? next.offset next.rest = some m ∧ next.rest.length < s.length := by
  by_cases hdigits : s.takeWhile Char.isDigit = []
  · left
    rw [misfit?_of_takeWhile_eq_nil hp hdigits hoperator] at hm
    cases hm
    have hnone : Reader.digits.run ⟨offset, s⟩ = none := by rw [Reader.run_digits, if_pos hdigits]
    have hdrop := List.takeWhile_append_dropWhile (p := Char.isDigit) (l := s)
    rw [hdigits, List.nil_append] at hdrop
    refine ⟨?_, ?_, rfl⟩
    · refine run_token_eq_none fun _ _ hrun => ?_
      rw [hsign] at hrun
      cases hrun
      exact hnone
    · rw [furthest_token h, hsign]
      simp only [hnone]
      rw [furthest_digits, hdigits, hdrop]
      exact hwanted
  · right
    have hafter : p.afterDigit = .first := by rcases hp with rfl | rfl <;> rfl
    obtain ⟨first, afterFirst, sides?, next, q, hfirst, hsides, hbehind, hmisfit, hlt⟩ :=
      exists_behind hafter hseen hdigits
    have hrun := Reader.run_token_eq_some_iff.mpr
      ⟨sign?, _, first, afterFirst, sides?, hsign, hfirst, hsides, rfl⟩
    refine ⟨_, next, q, hrun, ?_, hmisfit.symm.trans hm, hlt⟩
    rw [furthest_token h, hsign]
    simpa only [hfirst] using hbehind

theorem run_operator_symbol (sign : Sign) (offset : Nat) (s : List Char) :
    Reader.operator.run ⟨offset, sign.symbol :: s⟩ =
      some (sign, ⟨offset + sign.symbol.utf8Size, s⟩) :=
  Reader.run_operator_eq_some_iff.mpr ⟨rfl, by simp⟩

theorem run_operator_of_not {offset : Nat} {s : List Char}
    (h : ∀ c ∈ s.head?, isOperator c = false) : Reader.operator.run ⟨offset, s⟩ = none := by
  cases s with
  | nil => rfl
  | cons c s =>
    have hc : Sign.ofOperator? c = none := by simpa [isOperator] using h c rfl
    rw [Reader.run_operator_cons, hc]
    rfl

/-- Without an operator no operand is read, and the text should be over. -/
theorem furthest_closing_of_not {offset : Nat} {s : List Char} (seen : Option Failure)
    (h : ∀ c ∈ s.head?, isOperator c = false) :
    closing.furthest ⟨offset, s⟩ seen =
      endOfText.furthest ⟨offset, s⟩ (operator.furthest ⟨offset, s⟩ seen) := by
  have hnone : (some <$> Reader.operator : Reader (Option Sign)).run ⟨offset, s⟩ = none := by
    rw [StateT.run_map, run_operator_of_not h]
    rfl
  have htoken := run_token_eq_none fun _ _ hrun => absurd (hnone.symm.trans hrun) (by simp)
  rw [furthest_closing, htoken, signed, furthest_token (.map some .operator), hnone, furthest_map]

/-- Behind an operator a digit is missing, or reading goes on behind an operand. -/
theorem furthest_closing_of_symbol {sign : Sign} {offset : Nat} {s : List Char}
    {seen : Option Failure} (hseen : NotBeyond offset seen) {m : Misfit}
    (hm : Place.operator.misfit? (offset + sign.symbol.utf8Size) s = some m)
    (ih : ∀ {q : Place} {next : Cursor} {seen : Option Failure}, next.rest.length < s.length →
      Behind q next seen → q.misfit? next.offset next.rest = some m →
      closing.furthest next seen = some m.failure) :
    closing.furthest ⟨offset, sign.symbol :: s⟩ seen = some m.failure := by
  have hlt := Nat.lt_add_of_pos_right (n := offset) sign.symbol.utf8Size_pos
  have hoperator : NotBeyond offset
      ((some <$> operator).furthest ⟨offset, sign.symbol :: s⟩ seen) := by
    rw [furthest_map]
    exact notBeyond_operator hseen
  have hsign : (some <$> Reader.operator : Reader (Option Sign)).run ⟨offset, sign.symbol :: s⟩ =
      some (some sign, ⟨offset + sign.symbol.utf8Size, s⟩) := by
    rw [StateT.run_map, run_operator_symbol]
    rfl
  rw [furthest_closing]
  obtain ⟨hrun, htoken, hoffset⟩ | ⟨t, next, q, hrun, hbehind, hmisfit, hlength⟩ :=
    token_cases (.inr rfl) (.map some .operator) hsign (by simp) (hoperator.mono hlt.le)
      (hoperator.note_eq hlt) hm
  · simp only [hrun]
    rw [signed, htoken, furthest_endOfText, List.isEmpty_cons, if_neg Bool.false_ne_true]
    exact Failure.note_of_gt (hlt.trans_eq hoffset.symm)
  · have hprogress : next.rest.length < (sign.symbol :: s).length := Nat.lt_succ_of_lt hlength
    simp only [hrun, hprogress, if_true]
    exact ih hlength hbehind hmisfit

/-- Behind an operand no more is read, and all that would have fitted has been tried. -/
theorem furthest_closing_of_stuck {q : Place} (hq : q.isEnd) {offset : Nat} {c : Char}
    {rest : List Char} (hc : isOperator c = false) :
    closing.furthest ⟨offset, c :: rest⟩ (some ⟨offset, some c, q.tried⟩) =
      some ⟨offset, some c, q.wanted⟩ := by
  have hhead : ∀ d ∈ (c :: rest).head?, isOperator d = false := by simpa using hc
  rw [furthest_closing_of_not _ hhead, furthest_operator _ _ hhead, furthest_endOfText,
    List.isEmpty_cons, List.head?_cons, if_neg Bool.false_ne_true, Failure.note_same,
    Failure.note_same, Failure.note_same]
  cases q with
  | first => rfl
  | sides => rfl
  | start | operator | die => cases hq

/-- From behind an operand, reading fails at the misfit. It goes on only behind an operator, and then
from behind an operand again, with less text left. -/
theorem Behind.furthest_closing {q : Place} {cursor : Cursor} {seen : Option Failure} {m : Misfit}
    (h : Behind q cursor seen) (hm : q.misfit? cursor.offset cursor.rest = some m) :
    closing.furthest cursor seen = some m.failure := by
  induction hn : cursor.rest.length using Nat.strong_induction_on
    generalizing q cursor seen with
  | _ n ih =>
    subst hn
    cases h with
    | @operand q offset rest isEnd stuck =>
      cases rest with
      | nil =>
        rw [Place.misfit?, if_pos isEnd] at hm
        cases hm
      | cons c rest =>
        by_cases hc : isOperator c
        · obtain ⟨sign, rfl⟩ := exists_symbol_of_isOperator hc
          have htakes : q.takesOperator := by cases q <;> first | rfl | cases isEnd
          rw [Place.misfit?, Place.next_symbol sign htakes] at hm
          refine furthest_closing_of_symbol (by simp [NotBeyond]) hm ?_
          intro q' next seen' hlt hbehind hm'
          exact ih _ (Nat.lt_succ_of_lt hlt) hbehind hm' rfl
        · have hc : isOperator c = false := Bool.eq_false_iff.mpr hc
          rw [Place.misfit?, stuck c rfl hc] at hm
          cases hm
          exact furthest_closing_of_stuck isEnd hc
    | @die offset rest digit =>
      have hpos := 'd'.utf8Size_pos
      have hhead : ∀ c ∈ ('d' :: rest).head?, isOperator c = false := by
        intro c hc
        cases hc
        decide
      have hmisfit : Place.die.misfit? (offset + 'd'.utf8Size) rest =
          some ⟨.die, rest.head?, offset + 'd'.utf8Size⟩ := by
        cases rest with
        | nil => rfl
        | cons c rest => simp [Place.misfit?, Place.next, digit c rfl]
      cases hm.symm.trans hmisfit
      have hlt : offset < offset + 'd'.utf8Size := by omega
      rw [furthest_closing_of_not _ hhead, furthest_operator _ _ hhead, furthest_endOfText,
        List.isEmpty_cons, Failure.note_of_gt hlt, Failure.note_of_gt hlt]
      exact Failure.note_of_gt hlt

/-- Reading by descent fails at the misfit. -/
theorem furthest_tokens_of_misfit {s : List Char} {m : Misfit}
    (h : Place.start.misfit? 0 s = some m) : tokens.furthest ⟨0, s⟩ none = some m.failure := by
  have hcases : ((Reader.token (Reader.orNot Reader.operator)).run ⟨0, s⟩ = none ∧
        (token (orNot operator)).furthest ⟨0, s⟩ none = some m.failure) ∨
      ∃ t next q, (Reader.token (Reader.orNot Reader.operator)).run ⟨0, s⟩ = some (t, next) ∧
        Behind q next ((token (orNot operator)).furthest ⟨0, s⟩ none) ∧
        q.misfit? next.offset next.rest = some m := by
    by_cases hoperator : ∃ (sign : Sign) (rest : List Char), s = sign.symbol :: rest
    · obtain ⟨sign, rest, rfl⟩ := hoperator
      have hlt := Nat.lt_add_of_pos_right (n := 0) sign.symbol.utf8Size_pos
      have hseen : NotBeyond 0 ((orNot operator).furthest ⟨0, sign.symbol :: rest⟩ none) := by
        rw [furthest_orNot .operator]
        exact notBeyond_operator (by simp [NotBeyond])
      rw [Place.misfit?, Place.next_symbol sign rfl] at h
      obtain ⟨hrun, htoken, -⟩ | ⟨t, next, q, hrun, hbehind, hmisfit, -⟩ :=
        token_cases (.inr rfl) (.orNot .operator)
          (run_orNot_of_eq_some (run_operator_symbol sign 0 rest)) (by simp) (hseen.mono hlt.le)
          (hseen.note_eq hlt) h
      · exact .inl ⟨hrun, htoken⟩
      · exact .inr ⟨t, next, q, hrun, hbehind, hmisfit⟩
    · have hnone : ∀ c ∈ s.head?, isOperator c = false := by
        intro c hc
        obtain ⟨rest, rfl⟩ := List.head?_eq_some_iff.mp hc
        refine Bool.eq_false_iff.mpr fun hc => hoperator ?_
        obtain ⟨sign, rfl⟩ := exists_symbol_of_isOperator hc
        exact ⟨sign, rest, rfl⟩
      have hfurthest : (orNot operator).furthest ⟨0, s⟩ none =
          some ⟨0, s.head?, Place.start.wanted⟩ := by
        rw [furthest_orNot .operator, furthest_operator _ _ hnone]
        exact Failure.note_same ..
      have hseen : NotBeyond 0 ((orNot operator).furthest ⟨0, s⟩ none) := by
        simp [hfurthest, NotBeyond]
      have hwanted : Failure.note ((orNot operator).furthest ⟨0, s⟩ none) ⟨0, s.head?, []⟩ =
          some ⟨0, s.head?, Place.start.wanted⟩ := by
        rw [hfurthest, Failure.note_same]
        rfl
      obtain ⟨hrun, htoken, -⟩ | ⟨t, next, q, hrun, hbehind, hmisfit, -⟩ :=
        token_cases (.inl rfl) (.orNot .operator) (run_orNot_of_eq_none (run_operator_of_not hnone))
          (fun _ => hnone) hseen hwanted h
      · exact .inl ⟨hrun, htoken⟩
      · exact .inr ⟨t, next, q, hrun, hbehind, hmisfit⟩
  rw [furthest_tokens]
  obtain ⟨hrun, htoken⟩ | ⟨t, next, q, hrun, hbehind, hmisfit⟩ := hcases
  · simp only [hrun, htoken]
  · simp only [hrun]
    exact hbehind.furthest_closing hmisfit

end Reporter

/-- The errors of reading a text by descent: the furthest failure alone, if reading fails. -/
def readErrors (s : List Char) : List Failure :=
  match Reporter.tokens.report ⟨0, s⟩ none with
  | (none, furthest) => furthest.toList
  | (some _, _) => []

/-- The combinators report the misfit of the text, and nothing else. -/
theorem readErrors_eq (s : List Char) :
    readErrors s = (Place.start.misfit? 0 s).toList.map Misfit.failure := by
  have hrun := Reporter.Reports.tokens ⟨0, s⟩ none
  have hread : (Reader.tokens.run ⟨0, s⟩).map Prod.fst =
      (operands s).toOption.map (·.map Operand.asToken) := readTokens?_eq s
  rw [readErrors]
  cases hmisfit : Place.start.misfit? 0 s with
  | none =>
    have hoperands : operands s = .ok (Operand.ofPieces 0 (pieces s)) := by simp [operands, hmisfit]
    cases hreport : Reporter.tokens.report ⟨0, s⟩ none with
    | mk result furthest =>
      cases result with
      | some _ => rfl
      | none =>
        rw [hreport] at hrun
        rw [← hrun, hoperands] at hread
        cases hread
  | some misfit =>
    have hfurthest := Reporter.furthest_tokens_of_misfit hmisfit
    cases hreport : Reporter.tokens.report ⟨0, s⟩ none with
    | mk result furthest =>
      rw [Reporter.furthest, hreport] at hfurthest
      obtain rfl : furthest = some misfit.failure := hfurthest
      cases result with
      | none => rfl
      | some _ =>
        rw [hreport] at hrun
        rw [← hrun, operands_eq_error_iff.mpr hmisfit] at hread
        cases hread

/-- What is reported of a text that is no expression, whether it is cut or read by descent: one
error, at the character behind its longest viable beginning, with what fits there. -/
structure IsReported (s : List Char) (reason : String) (span : Span) : Prop where
  at_longest_viable : ∃ front rest place, s = front ++ rest ∧ IsLongestViable front s ∧
    Place.Reads place front ∧ (∀ c ∈ front, c.toNat < 128) ∧
    span.start = front.length ∧ charactersIn span.start s = front.length ∧
    span.start = byteLength front ∧ span.stop = byteLength (front ++ rest.head?.toList) ∧
    reason = "found " ++ (rest.head?.map String.singleton).getD "end of input" ++ " expected "
      ++ place.expected
  cut : ∃ misfit, operands s = .error misfit ∧ misfit.reason = reason ∧ misfit.span = span
  read : (readErrors s).map (fun e => (e.reason, e.span)) = [(reason, span)]
  rejected : ∀ limits input, stripBlanks input.toList = s → s ≠ [] →
    Terms.parse limits input = .error (.syntaxMismatch reason span)

/-- The misfit of a text is what is reported, with its reason and span. -/
theorem isReported_of_misfit {s : List Char} {misfit : Misfit}
    (h : Place.start.misfit? 0 s = some misfit) : IsReported s misfit.reason misfit.span := by
  refine ⟨?_, ⟨misfit, operands_eq_error_iff.mpr h, rfl, rfl⟩, ?_, ?_⟩
  · obtain ⟨front, rest, place, rfl, hplace, hstuck, rfl⟩ := Place.misfit?_eq_some_iff.mp h
    have hascii := Place.toNat_lt_of_after? hplace
    have hlength := byteLength_eq_length hascii
    refine ⟨front, rest, place, rfl, Place.isLongestViable_of_isStuck hplace hstuck,
      Place.reads_of_after? hplace, hascii, ?_, ?_, ?_, ?_, rfl⟩
    · rw [Misfit.span, Nat.zero_add, hlength]
    · rw [Misfit.span, Nat.zero_add, hlength]
      exact charactersIn_append hascii rest
    · rw [Misfit.span, Nat.zero_add]
    · rw [Misfit.span, Nat.zero_add, byteLength_append]
      cases rest <;> simp
  · rw [readErrors_eq, h]
    simp [Misfit.reason_failure, Misfit.span_failure]
  · rintro limits input rfl hne
    exact Terms.ofExpression_of_misfit hne h

/-- A text that is no expression has one error, and it is where the longest beginning ends that
some expression begins with. -/
theorem exists_isReported (s : List Char) (h : s ∉ Grammar.expression) :
    ∃ reason span, IsReported s reason span := by
  obtain ⟨misfit, hmisfit⟩ := exists_misfit_iff.mpr h
  exact ⟨misfit.reason, misfit.span, isReported_of_misfit hmisfit⟩

/-- A `d` is given back where no digits follow it, but the error stays behind it. -/
theorem exists_isReported_behind_die :
    "3+2dé".toList ∉ Grammar.expression ∧
      ∃ reason span, IsReported "3+2dé".toList reason span ∧
        reason = "found é expected something else" ∧ span = ⟨4, 6⟩ := by
  have hmisfit : Place.start.misfit? 0 "3+2dé".toList = some ⟨.die, some 'é', 4⟩ := by decide
  have hnot := exists_misfit_iff.mp ⟨_, hmisfit⟩
  obtain ⟨reason, span, h⟩ := exists_isReported _ hnot
  obtain ⟨misfit, hoperands, hreason, hspan⟩ := h.cut
  obtain rfl : ⟨.die, some 'é', 4⟩ = misfit :=
    Except.error.inj ((operands_eq_error_iff.mpr hmisfit).symm.trans hoperands)
  exact ⟨hnot, reason, span, h, hreason.symm.trans (by decide), hspan.symm⟩

end FairDice
