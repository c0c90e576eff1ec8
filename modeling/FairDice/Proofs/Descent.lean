import FairDice.Proofs.Cutting
import FairDice.Proofs.Readers

/-!
# The operands read by descent

A text that is read so gives the operands that are cut out of it, or fails where
it has a misfit: digits are read to their end, an operator starts the next
operand, and a `d` belongs to digits behind it or to nothing.
-/
namespace FairDice

/-- An operand as it is read: its parts, and the text between the places before and behind it. -/
structure Token where
  sign? : Option Sign
  first : List Char
  sides? : Option (List Char)
  raw : List Char
  span : Span
  deriving DecidableEq, Repr

def Operand.asToken (o : Operand) : Token := ⟨o.sign?, o.first, o.sides?, o.text, o.span⟩

namespace Reader

variable {α : Type}

def digits : Reader (List Char) := do
  let digit ← char Char.isDigit
  return digit :: (← repeated (char Char.isDigit))

def operator : Reader Sign :=
  (fun _ => .plus) <$> just '+' <|> (fun _ => .minus) <$> just '-'

def die : Reader (List Char) := do
  let _ ← just 'd'
  digits

/-- One operand, whose operator is read by `sign`. -/
def token (sign : Reader (Option Sign)) : Reader Token := do
  let start ← get
  let sign? ← sign
  let first ← digits
  let sides? ← orNot die
  let stop ← get
  let raw := start.rest.take (start.rest.length - stop.rest.length)
  return { sign?, first, sides?, raw, span := ⟨start.offset, stop.offset⟩ }

/-- The operands of a whole text. Only the first may do without an operator. -/
def tokens : Reader (List Token) := do
  let first ← token (orNot operator)
  let rest ← repeated (token (some <$> operator))
  endOfText
  return first :: rest

/-- The combinator of digits takes all the digits in front, and at least one. -/
theorem run_digits (offset : Nat) (s : List Char) :
    digits.run ⟨offset, s⟩ =
      if s.takeWhile Char.isDigit = [] then none
      else some (s.takeWhile Char.isDigit,
        ⟨offset + byteLength (s.takeWhile Char.isDigit), s.dropWhile Char.isDigit⟩) := by
  cases s with
  | nil => rfl
  | cons c s =>
    rw [digits, StateT.run_bind, run_char_cons]
    by_cases hc : c.isDigit
    · simp [hc, run_repeated_char, Nat.add_assoc]
    · simp [hc]

theorem run_operator_nil (offset : Nat) : operator.run ⟨offset, []⟩ = none := rfl

theorem run_operator_cons (offset : Nat) (c : Char) (s : List Char) :
    operator.run ⟨offset, c :: s⟩ =
      (Sign.ofOperator? c).map fun sign => (sign, ⟨offset + c.utf8Size, s⟩) := by
  rw [operator, run_orElse, StateT.run_map, StateT.run_map, just, just, run_char_cons,
    run_char_cons]
  by_cases hplus : c = '+'
  · subst hplus
    rfl
  by_cases hminus : c = '-'
  · subst hminus
    rfl
  have hnone : Sign.ofOperator? c = none := by
    unfold Sign.ofOperator?
    split <;> simp_all
  simp [hplus, hminus, hnone]

theorem run_operator_eq_some_iff {cursor next : Cursor} {sign : Sign} :
    operator.run cursor = some (sign, next) ↔ Advances cursor [sign.symbol] next := by
  obtain ⟨offset, rest⟩ := cursor
  obtain ⟨nextOffset, nextRest⟩ := next
  cases rest with
  | nil => simp [run_operator_nil, advances_iff]
  | cons c rest =>
    rw [run_operator_cons, advances_iff]
    constructor
    · intro h
      obtain ⟨_, hsign, h⟩ := Option.map_eq_some_iff.mp h
      obtain rfl := Sign.eq_symbol_of_ofOperator? hsign
      cases h
      exact ⟨rfl, by simp⟩
    · rintro ⟨hrest, hoffset⟩
      obtain ⟨rfl, rfl⟩ := List.cons.inj hrest
      simp_all

/-- Digits are read to their end. -/
theorem run_digits_eq_some_iff {cursor next : Cursor} {ds : List Char} :
    digits.run cursor = some (ds, next) ↔
      IsNumeral ds ∧ Advances cursor ds next ∧ ∀ c ∈ next.rest.head?, c.isDigit = false := by
  obtain ⟨offset, s⟩ := cursor
  obtain ⟨nextOffset, rest⟩ := next
  simp only [run_digits, advances_iff]
  constructor
  · intro h
    split at h
    · cases h
    · next hne =>
      cases h
      refine ⟨⟨hne, List.all_eq_true.mp (List.all_takeWhile)⟩, ⟨?_, rfl⟩, ?_⟩
      · exact (List.takeWhile_append_dropWhile ..).symm
      · intro c hc
        have := List.head?_dropWhile_not Char.isDigit s
        rw [Option.mem_def] at hc
        simpa [hc] using this
  · rintro ⟨hds, ⟨rfl, rfl⟩, hrest⟩
    have htake : rest.takeWhile Char.isDigit = [] := by
      cases rest with
      | nil => rfl
      | cons c rest => simp [hrest c rfl]
    have hdrop : rest.dropWhile Char.isDigit = rest := by
      cases rest with
      | nil => rfl
      | cons c rest => simp [hrest c rfl]
    rw [List.takeWhile_append_of_pos hds.2, List.dropWhile_append_of_pos hds.2, htake, hdrop]
    simp [hds.1]

theorem run_die_eq_some_iff {cursor next : Cursor} {ds : List Char} :
    die.run cursor = some (ds, next) ↔
      IsNumeral ds ∧ Advances cursor ('d' :: ds) next ∧
        ∀ c ∈ next.rest.head?, c.isDigit = false := by
  rw [die, StateT.run_bind]
  constructor
  · intro h
    obtain ⟨⟨c, middle⟩, hd, hdigits⟩ := Option.bind_eq_some_iff.mp h
    obtain ⟨-, hd⟩ := run_just_eq_some_iff.mp hd
    obtain ⟨hds, hadvances, hnext⟩ := run_digits_eq_some_iff.mp hdigits
    exact ⟨hds, hd.append hadvances, hnext⟩
  · rintro ⟨hds, hadvances, hnext⟩
    obtain ⟨middle, hd, hdigits⟩ := Advances.split (s := ['d']) hadvances
    rw [run_just_eq_some_iff.mpr ⟨rfl, hd⟩]
    exact run_digits_eq_some_iff.mpr ⟨hds, hdigits, hnext⟩

theorem run_token_eq_some_iff {sign : Reader (Option Sign)} {cursor next : Cursor} {t : Token} :
    (token sign).run cursor = some (t, next) ↔
      ∃ sign? afterSign first afterFirst sides?,
        sign.run cursor = some (sign?, afterSign) ∧
        digits.run afterSign = some (first, afterFirst) ∧
        (orNot die).run afterFirst = some (sides?, next) ∧
        t = ⟨sign?, first, sides?, cursor.rest.take (cursor.rest.length - next.rest.length),
          ⟨cursor.offset, next.offset⟩⟩ := by
  have hrun : (token sign).run cursor =
      (sign.run cursor).bind fun (sign?, afterSign) =>
        (digits.run afterSign).bind fun (first, afterFirst) =>
          ((orNot die).run afterFirst).bind fun (sides?, last) =>
            some (⟨sign?, first, sides?,
              cursor.rest.take (cursor.rest.length - last.rest.length),
              ⟨cursor.offset, last.offset⟩⟩, last) := rfl
  rw [hrun]
  constructor
  · intro h
    obtain ⟨⟨sign?, afterSign⟩, hsign, h⟩ := Option.bind_eq_some_iff.mp h
    obtain ⟨⟨first, afterFirst⟩, hfirst, h⟩ := Option.bind_eq_some_iff.mp h
    obtain ⟨⟨sides?, last⟩, hsides, h⟩ := Option.bind_eq_some_iff.mp h
    cases h
    exact ⟨sign?, afterSign, first, afterFirst, sides?, hsign, hfirst, hsides, rfl⟩
  · rintro ⟨sign?, afterSign, first, afterFirst, sides?, hsign, hfirst, hsides, rfl⟩
    simp [hsign, hfirst, hsides]

/-- What a reader of operands reads is an operand as it is written. -/
theorem exists_written_of_run_token {sign : Reader (Option Sign)} {cursor next : Cursor} {t : Token}
    (h : (token sign).run cursor = some (t, next))
    (hsign : ∀ {sign? middle}, sign.run cursor = some (sign?, middle) →
      Advances cursor (sign?.map Sign.symbol).toList middle) :
    ∃ w : Written, w.IsWellFormed ∧ t = (w.placedAt cursor.offset).asToken ∧
      Advances cursor w.text next ∧ ∃ middle, sign.run cursor = some (w.sign?, middle) := by
  obtain ⟨sign?, afterSign, first, afterFirst, sides?, hrun, hfirst, hsides, rfl⟩ :=
    run_token_eq_some_iff.mp h
  obtain ⟨hnumeral, hfirst, -⟩ := run_digits_eq_some_iff.mp hfirst
  have hrest : (∀ ds ∈ sides?, IsNumeral ds) ∧
      Advances afterFirst ((sides?.map ('d' :: ·)).getD []) next := by
    rcases run_orNot_eq_some_iff.mp hsides with ⟨ds, rfl, hdie⟩ | ⟨rfl, -, rfl⟩
    · obtain ⟨hds, hdie, -⟩ := run_die_eq_some_iff.mp hdie
      exact ⟨by simpa using hds, hdie⟩
    · exact ⟨by simp, advances_nil.mpr rfl⟩
  have hadvances : Advances cursor (Written.text ⟨sign?, first, sides?⟩) next :=
    (hsign hrun).append (hfirst.append hrest.2)
  refine ⟨⟨sign?, first, sides?⟩, ⟨hnumeral, hrest.1⟩, ?_, hadvances, afterSign, hrun⟩
  rw [Operand.asToken, Written.text_placedAt, Written.span_placedAt, take_of_advances hadvances,
    hadvances.offset]
  rfl

/-- An operand as it is written is read, where no digit and no `d` follows it. -/
theorem run_token_of_written {sign : Reader (Option Sign)} {cursor next : Cursor} {w : Written}
    (hw : w.IsWellFormed) (h : Advances cursor w.text next)
    (hnext : ∀ c ∈ next.rest.head?, isOperator c)
    (hsign : ∀ {middle}, Advances cursor (w.sign?.map Sign.symbol).toList middle →
      sign.run cursor = some (w.sign?, middle)) :
    (token sign).run cursor = some ((w.placedAt cursor.offset).asToken, next) := by
  have hdigit : ∀ c ∈ next.rest.head?, c.isDigit = false := by
    intro c hc
    by_contra hne
    have := isOperator_eq_false_of_isDigit (Bool.of_not_eq_false hne)
    simp [hnext c hc] at this
  obtain ⟨afterSign, hfront, hbody⟩ := h.split
  obtain ⟨afterFirst, hfirst, hsides⟩ := hbody.split
  have hdie : (orNot die).run afterFirst = some (w.sides?, next) := by
    refine run_orNot_eq_some_iff.mpr ?_
    cases hs : w.sides? with
    | none =>
      simp only [hs, Option.map_none, Option.getD_none] at hsides
      obtain rfl := advances_nil.mp hsides
      refine .inr ⟨rfl, ?_, rfl⟩
      by_contra hne
      obtain ⟨⟨ds, last⟩, hrun⟩ := Option.ne_none_iff_exists'.mp hne
      obtain ⟨-, hd, -⟩ := run_die_eq_some_iff.mp hrun
      have := hnext 'd' (by simp [hd.rest])
      exact absurd this (by decide)
    | some ds =>
      refine .inl ⟨ds, rfl, run_die_eq_some_iff.mpr ⟨hw.sides ds hs, ?_, hdigit⟩⟩
      simpa [hs] using hsides
  have hfirst : digits.run afterSign = some (w.first, afterFirst) := by
    refine run_digits_eq_some_iff.mpr ⟨hw.first, hfirst, ?_⟩
    intro c hc
    rw [hsides.rest] at hc
    cases hs : w.sides? with
    | none => exact hdigit c (by simpa [hs] using hc)
    | some ds =>
      obtain rfl : 'd' = c := by simpa [hs] using hc
      decide
  refine run_token_eq_some_iff.mpr
    ⟨w.sign?, afterSign, w.first, afterFirst, w.sides?, hsign hfront, hfirst, hdie, ?_⟩
  rw [Operand.asToken, Written.text_placedAt, Written.span_placedAt, take_of_advances h, h.offset]
  rfl

theorem run_signed_eq_some_iff {cursor next : Cursor} {sign? : Option Sign} :
    ((some <$> operator : Reader (Option Sign))).run cursor = some (sign?, next) ↔
      ∃ sign, sign? = some sign ∧ Advances cursor [sign.symbol] next := by
  rw [StateT.run_map]
  constructor
  · intro h
    obtain ⟨⟨sign, middle⟩, hrun, h⟩ := Option.map_eq_some_iff.mp h
    cases h
    exact ⟨sign, rfl, run_operator_eq_some_iff.mp hrun⟩
  · rintro ⟨sign, rfl, h⟩
    rw [run_operator_eq_some_iff.mpr h]
    rfl

theorem isOperator_head?_of_signed {ws : List Written} (h : ∀ w ∈ ws, w.sign?.isSome) :
    ∀ c ∈ (rowText ws).head?, isOperator c := by
  cases ws with
  | nil => simp
  | cons w ws =>
    obtain ⟨sign, hs⟩ := Option.isSome_iff_exists.mp (h w (by simp))
    simp [Written.text, hs]

/-- What the repetition reads is a row of operands, each with its operator. -/
theorem exists_row_of_run_repeated {cursor last : Cursor} {ts : List Token}
    (h : (repeated (token (some <$> operator))).run cursor = some (ts, last)) :
    ∃ ws : List Written, (∀ w ∈ ws, w.IsWellFormed) ∧ (∀ w ∈ ws, w.sign?.isSome) ∧
      ts = (placed cursor.offset ws).map Operand.asToken ∧ Advances cursor (rowText ws) last := by
  induction ts generalizing cursor with
  | nil =>
    rcases run_repeated_eq_some h with ⟨-, -, rfl⟩ | ⟨t, next, -, ⟨rest, hts, -⟩ | ⟨-, hts, -⟩⟩
    · exact ⟨[], by simp, by simp, rfl, advances_nil.mpr rfl⟩
    · cases hts
    · cases hts
  | cons t ts ih =>
    rcases run_repeated_eq_some h with ⟨-, hts, -⟩ | ⟨t', next, ht, hrest⟩
    · cases hts
    obtain ⟨w, hw, rfl, hadvances, middle, hsign⟩ := exists_written_of_run_token ht (by
      intro sign? middle hrun
      obtain ⟨sign, rfl, hfront⟩ := run_signed_eq_some_iff.mp hrun
      exact hfront)
    have hlt := length_lt_of_advances hadvances hw.text_ne_nil
    rcases hrest with ⟨rest, hts, hrun⟩ | ⟨hle, -, -⟩
    · obtain ⟨rfl, rfl⟩ := List.cons.inj hts
      obtain ⟨ws, hws, hsigns, rfl, hrow⟩ := ih hrun
      obtain ⟨sign, hsign, -⟩ := run_signed_eq_some_iff.mp hsign
      refine ⟨w :: ws, ?_, ?_, ?_, hadvances.append hrow⟩
      · exact List.forall_mem_cons.mpr ⟨hw, hws⟩
      · exact List.forall_mem_cons.mpr ⟨by simp [hsign], hsigns⟩
      · rw [placed_cons, List.map_cons, ← hadvances.offset]
    · omega

/-- A row of operands, each with its operator, is read to the end of the text. -/
theorem run_repeated_of_row {ws : List Written} (hws : ∀ w ∈ ws, w.IsWellFormed)
    (hsigns : ∀ w ∈ ws, w.sign?.isSome) {cursor last : Cursor}
    (h : Advances cursor (rowText ws) last) (hlast : last.rest = []) :
    (repeated (token (some <$> operator))).run cursor =
      some ((placed cursor.offset ws).map Operand.asToken, last) := by
  induction ws generalizing cursor with
  | nil =>
    obtain rfl := advances_nil.mp h
    have hnone : (token (some <$> operator)).run last = none := by
      by_contra hne
      obtain ⟨⟨t, next⟩, hrun⟩ := Option.ne_none_iff_exists'.mp hne
      obtain ⟨sign?, middle, _, _, _, hsign, -⟩ := run_token_eq_some_iff.mp hrun
      obtain ⟨sign, -, hsign⟩ := run_signed_eq_some_iff.mp hsign
      have := hsign.rest
      simp [hlast] at this
    rw [run_repeated, hnone]
    rfl
  | cons w ws ih =>
    obtain ⟨hw, hws⟩ := List.forall_mem_cons.mp hws
    obtain ⟨hsign, hsigns⟩ := List.forall_mem_cons.mp hsigns
    obtain ⟨next, hfront, hrow⟩ := Advances.split (s := w.text) h
    have hnext : ∀ c ∈ next.rest.head?, isOperator c := by
      rw [hrow.rest, hlast, List.append_nil]
      exact isOperator_head?_of_signed hsigns
    have hsigned : ∀ {middle}, Advances cursor (w.sign?.map Sign.symbol).toList middle →
        (some <$> operator).run cursor = some (w.sign?, middle) := by
      obtain ⟨sign, hs⟩ := Option.isSome_iff_exists.mp hsign
      intro middle hmiddle
      rw [hs] at hmiddle ⊢
      exact run_signed_eq_some_iff.mpr ⟨sign, rfl, hmiddle⟩
    have hrun := run_token_of_written hw hfront hnext hsigned
    rw [run_repeated, hrun]
    simp only [length_lt_of_advances hfront hw.text_ne_nil, if_true, ih hws hsigns hrow,
      hfront.offset, Option.map_some, placed_cons, List.map_cons]

theorem run_tokens_eq_some_iff {cursor last : Cursor} {ts : List Token} :
    tokens.run cursor = some (ts, last) ↔
      ∃ first middle rest, (token (orNot operator)).run cursor = some (first, middle) ∧
        (repeated (token (some <$> operator))).run middle = some (rest, last) ∧
        last.rest = [] ∧ ts = first :: rest := by
  have hrun : tokens.run cursor =
      ((token (orNot operator)).run cursor).bind fun (first, middle) =>
        ((repeated (token (some <$> operator))).run middle).bind fun (rest, last) =>
          (endOfText.run last).bind fun (_, last) => some (first :: rest, last) := rfl
  rw [hrun]
  constructor
  · intro h
    obtain ⟨⟨first, middle⟩, hfirst, htail⟩ := Option.bind_eq_some_iff.mp h
    obtain ⟨⟨rest, behind⟩, hrest, hend⟩ := Option.bind_eq_some_iff.mp htail
    obtain ⟨⟨_, next⟩, hend, hresult⟩ := Option.bind_eq_some_iff.mp hend
    obtain ⟨hnext, hnil⟩ := run_endOfText_eq_some_iff.mp hend
    subst hnext
    cases hresult
    exact ⟨first, middle, rest, hfirst, hrest, hnil, rfl⟩
  · rintro ⟨first, middle, rest, hfirst, hrest, hnil, rfl⟩
    simp [hfirst, hrest, run_endOfText_eq_some_iff.mpr ⟨rfl, hnil⟩]

end Reader

def readTokens? (s : List Char) : Option (List Token) :=
  (Reader.tokens.run ⟨0, s⟩).map Prod.fst

/-- Whatever the combinators accept is written by some row. -/
theorem exists_writes_of_readTokens? {s : List Char} {ts : List Token}
    (h : readTokens? s = some ts) : ∃ ws, Writes ws s := by
  obtain ⟨⟨_, last⟩, hrun, -⟩ := Option.map_eq_some_iff.mp h
  obtain ⟨first, middle, rest, hfirst, hrest, hnil, -⟩ := Reader.run_tokens_eq_some_iff.mp hrun
  obtain ⟨w, hw, -, hfront, -⟩ := Reader.exists_written_of_run_token hfirst (by
    intro sign? next hrun
    rcases Reader.run_orNot_eq_some_iff.mp hrun with ⟨sign, rfl, hsign⟩ | ⟨rfl, -, rfl⟩
    · exact Reader.run_operator_eq_some_iff.mp hsign
    · exact advances_nil.mpr rfl)
  obtain ⟨ws, hws, hsigns, -, hrow⟩ := Reader.exists_row_of_run_repeated hrest
  refine ⟨w :: ws, by simp, ⟨List.forall_mem_cons.mpr ⟨hw, hws⟩, hsigns⟩, ?_⟩
  have := (hfront.append hrow).rest
  rw [hnil, List.append_nil] at this
  exact this.symm

/-- The combinators read a written row as its operands, each at its own place. -/
theorem Writes.readTokens?_eq {ws : List Written} {s : List Char} (h : Writes ws s) :
    readTokens? s = some ((placed 0 ws).map Operand.asToken) := by
  obtain ⟨hne, hrow, rfl⟩ := h
  obtain ⟨w, ws, rfl⟩ := List.exists_cons_of_ne_nil hne
  obtain ⟨hw, hws⟩ := List.forall_mem_cons.mp hrow.wellFormed
  have hall : Advances ⟨0, rowText (w :: ws)⟩ (w.text ++ rowText ws)
      ⟨byteLength (w.text ++ rowText ws), []⟩ := ⟨by simp, by simp⟩
  obtain ⟨middle, hfront, hback⟩ := hall.split
  have hmiddle : ∀ c ∈ middle.rest.head?, isOperator c := by
    rw [hback.rest, List.append_nil]
    exact Reader.isOperator_head?_of_signed hrow.signed
  have hsigned : ∀ {next}, Advances ⟨0, rowText (w :: ws)⟩ (w.sign?.map Sign.symbol).toList next →
      (Reader.orNot .operator).run ⟨0, rowText (w :: ws)⟩ = some (w.sign?, next) := by
    intro next hnext
    refine Reader.run_orNot_eq_some_iff.mpr ?_
    cases hs : w.sign? with
    | some sign =>
      rw [hs] at hnext
      exact .inl ⟨sign, rfl, Reader.run_operator_eq_some_iff.mpr hnext⟩
    | none =>
      rw [hs] at hnext
      refine .inr ⟨rfl, ?_, advances_nil.mp hnext⟩
      by_contra hsome
      obtain ⟨⟨sign, after⟩, hrun⟩ := Option.ne_none_iff_exists'.mp hsome
      have hhead : (w.text ++ rowText ws).head? = some sign.symbol := by
        simpa using congrArg List.head? (Reader.run_operator_eq_some_iff.mp hrun).rest
      have hsign := hw.ofOperator?_head?
      rw [List.head?_append_of_ne_nil _ hw.text_ne_nil] at hhead
      simp [hhead, hs] at hsign
  have hfirst := Reader.run_token_of_written hw hfront hmiddle hsigned
  have hrest := Reader.run_repeated_of_row hws hrow.signed hback rfl
  have hrun := Reader.run_tokens_eq_some_iff.mpr ⟨_, _, _, hfirst, hrest, rfl, rfl⟩
  rw [readTokens?, hrun, placed_cons, List.map_cons, ← hfront.offset]
  rfl

/-- Reading by descent comes to what is cut out of the text. -/
theorem readTokens?_eq (s : List Char) :
    readTokens? s = (operands s).toOption.map (·.map Operand.asToken) := by
  by_cases h : ∃ ws, Writes ws s
  · obtain ⟨ws, hws⟩ := h
    rw [hws.readTokens?_eq, hws.operands_eq]
    rfl
  · have hread : readTokens? s = none := by
      by_contra hne
      obtain ⟨ts, hts⟩ := Option.ne_none_iff_exists'.mp hne
      exact h (exists_writes_of_readTokens? hts)
    cases hoperands : operands s with
    | error misfit => exact hread
    | ok ops =>
      obtain ⟨ws, hws, -⟩ := operands_eq_ok_iff.mp hoperands
      exact absurd ⟨ws, hws⟩ h

end FairDice
