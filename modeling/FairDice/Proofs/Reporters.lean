import FairDice.Proofs.Descent

/-!
# What is reported where reading by descent fails

Choices are taken back on the way, after an operator or a `d` without digits
behind it, but the failure that is reported is the furthest one, wherever reading
went on from, with all that would have fitted there. It is the misfit of the
text.
-/
namespace FairDice

/-- What would have fitted at a place in a text. -/
inductive Expectation where
  | character (c : Char)
  | endOfText
  deriving DecidableEq, Repr

namespace Expectation

def text : Expectation → String
  | .character c => "'" ++ String.singleton c ++ "'"
  | .endOfText => "end of input"

/-- Alternatives in a row, with a comma after each but the last. -/
def anyOf : List Expectation → String
  | [] => "something else"
  | [e] => e.text
  | [e, last] => e.text ++ ", or " ++ last.text
  | e :: es => e.text ++ ", " ++ anyOf es

end Expectation

/-- A place where reading failed, what stands there, and what was tried there. -/
structure Failure where
  offset : Nat
  found : Option Char
  expected : List Expectation
  deriving DecidableEq, Repr

namespace Failure

def span (f : Failure) : Span := ⟨f.offset, f.offset + (f.found.map Char.utf8Size).getD 0⟩

def reason (f : Failure) : String :=
  "found " ++ (f.found.map String.singleton).getD "end of input" ++ " expected "
    ++ Expectation.anyOf f.expected

/-- The further of two failures; at the same place, all that was tried there. -/
def merge (old new : Failure) : Failure :=
  if old.offset < new.offset then new
  else if new.offset < old.offset then old
  else { old with expected := old.expected ++ new.expected.filter (· ∉ old.expected) }

/-- The furthest failure seen, with one more. -/
def note (seen : Option Failure) (new : Failure) : Option Failure :=
  match seen with
  | none => some new
  | some old => some (old.merge new)

/-- A failure further on is the one that is kept. -/
theorem note_of_lt {seen : Option Failure} {new : Failure}
    (h : ∀ old ∈ seen, old.offset < new.offset) : note seen new = some new := by
  cases seen with
  | none => rfl
  | some old => simp [note, merge, h old rfl]

theorem note_of_gt {old new : Failure} (h : new.offset < old.offset) :
    note (some old) new = some old := by
  have hle : ¬old.offset < new.offset := by omega
  simp [note, merge, h, hle]

/-- Failures at one place have their expectations joined. -/
theorem note_same (offset : Nat) (found found' : Option Char) (old new : List Expectation) :
    note (some ⟨offset, found, old⟩) ⟨offset, found', new⟩ =
      some ⟨offset, found, old ++ new.filter (· ∉ old)⟩ := by
  simp [note, merge]

end Failure

/-- A reader that keeps the furthest failure on its way, also where another reader has stood in. -/
abbrev Reporter := StateT Cursor (OptionT (StateM (Option Failure)))

namespace Reporter

variable {α β : Type}

def report (x : Reporter α) (cursor : Cursor) (seen : Option Failure) :
    Option (α × Cursor) × Option Failure := ((x.run cursor).run).run seen

def furthest (x : Reporter α) (cursor : Cursor) (seen : Option Failure) : Option Failure :=
  (x.report cursor seen).2

def fail (expected : List Expectation) : Reporter α := fun cursor => OptionT.mk fun seen =>
  (none, Failure.note seen ⟨cursor.offset, cursor.rest.head?, expected⟩)

def char (fits : Char → Bool) (expected : List Expectation) : Reporter Char := fun cursor =>
  match cursor.rest with
  | [] => fail expected cursor
  | c :: rest =>
    if fits c then pure (c, ⟨cursor.offset + c.utf8Size, rest⟩) else fail expected cursor

def just (c : Char) : Reporter Char := char (· == c) [.character c]

def orNot (x : Reporter α) : Reporter (Option α) := some <$> x <|> pure none

def repeated (x : Reporter α) : Reporter (List α) := fun cursor => OptionT.mk fun seen =>
  match x.report cursor seen with
  | (none, seen) => (some ([], cursor), seen)
  | (some (a, next), seen) =>
    if next.rest.length < cursor.rest.length then
      let (rest, seen) := (repeated x next).run seen
      (rest.map fun (as, last) => (a :: as, last), seen)
    else (some ([a], next), seen)
termination_by cursor => cursor.rest.length

def endOfText : Reporter Unit := fun cursor =>
  if cursor.rest.isEmpty then pure ((), cursor) else fail [.endOfText] cursor

/-- What a digit would have fitted is not said: it is the text of no failure. -/
def digit : Reporter Char := char Char.isDigit []

def digits : Reporter (List Char) := do
  let first ← digit
  return first :: (← repeated digit)

def operator : Reporter Sign :=
  (fun _ => .plus) <$> just '+' <|> (fun _ => .minus) <$> just '-'

def die : Reporter (List Char) := do
  let _ ← just 'd'
  digits

def token (sign : Reporter (Option Sign)) : Reporter Token := do
  let start ← get
  let sign? ← sign
  let first ← digits
  let sides? ← orNot die
  let stop ← get
  let raw := start.rest.take (start.rest.length - stop.rest.length)
  return { sign?, first, sides?, raw, span := ⟨start.offset, stop.offset⟩ }

def tokens : Reporter (List Token) := do
  let first ← token (orNot operator)
  let rest ← repeated (token (some <$> operator))
  endOfText
  return first :: rest

theorem report_bind (x : Reporter α) (f : α → Reporter β) (cursor : Cursor)
    (seen : Option Failure) :
    (x >>= f).report cursor seen =
      match x.report cursor seen with
      | (none, seen) => (none, seen)
      | (some (a, next), seen) => (f a).report next seen := by
  simp only [report, StateT.run_bind, OptionT.run_bind, Option.elimM]
  cases (x.run cursor).run.run seen with
  | mk result seen => cases result <;> rfl

theorem report_orElse (x y : Reporter α) (cursor : Cursor) (seen : Option Failure) :
    (x <|> y).report cursor seen =
      match x.report cursor seen with
      | (none, seen) => y.report cursor seen
      | (some result, seen) => (some result, seen) := by
  have h : (x <|> y).run cursor = (x.run cursor <|> y.run cursor) := rfl
  simp only [report, h, OptionT.run_orElse, StateT.run_bind, Option.elimM]
  cases (x.run cursor).run.run seen with
  | mk result seen => cases result <;> rfl

theorem report_repeated (x : Reporter α) (cursor : Cursor) (seen : Option Failure) :
    (repeated x).report cursor seen =
      match x.report cursor seen with
      | (none, seen) => (some ([], cursor), seen)
      | (some (a, next), seen) =>
        if next.rest.length < cursor.rest.length then
          (((repeated x).report next seen).1.map fun (as, last) => (a :: as, last),
            (repeated x).furthest next seen)
        else (some ([a], next), seen) := by
  have h : (repeated x).report cursor seen = (repeated x cursor).run seen := rfl
  rw [h, repeated]
  rfl

/-- The reporter reads what the reader does. -/
def Reports (x : Reporter α) (y : Reader α) : Prop :=
  ∀ cursor seen, (x.report cursor seen).1 = y.run cursor

theorem Reports.pure (a : α) : Reports (pure a) (pure a) := fun _ _ => rfl

theorem Reports.get : Reports get get := fun _ _ => rfl

/-- Reporters in a row read what the readers in a row do. -/
theorem Reports.bind {x : Reporter α} {y : Reader α} {f : α → Reporter β} {g : α → Reader β}
    (h : Reports x y) (hf : ∀ a, Reports (f a) (g a)) : Reports (x >>= f) (y >>= g) := by
  intro cursor seen
  rw [report_bind, StateT.run_bind, ← h cursor seen]
  split
  · next hx => rw [hx]; rfl
  · next a next seen' hx => rw [hx]; exact hf a next seen'

theorem Reports.map {x : Reporter α} {y : Reader α} (f : α → β) (h : Reports x y) :
    Reports (f <$> x) (f <$> y) := by
  rw [← bind_pure_comp, ← bind_pure_comp]
  exact h.bind fun a => .pure (f a)

theorem Reports.orElse {x x' : Reporter α} {y y' : Reader α} (h : Reports x y)
    (h' : Reports x' y') : Reports (x <|> x') (y <|> y') := by
  intro cursor seen
  rw [report_orElse, Reader.run_orElse, ← h cursor seen]
  split
  · next seen' hx => rw [hx, h' cursor seen']; rfl
  · next hx => rw [hx]; rfl

theorem Reports.orNot {x : Reporter α} {y : Reader α} (h : Reports x y) :
    Reports (orNot x) (Reader.orNot y) := (h.map some).orElse (.pure none)

theorem report_char_cons (fits : Char → Bool) (expected : List Expectation) (offset : Nat)
    (c : Char) (s : List Char) (seen : Option Failure) :
    (char fits expected).report ⟨offset, c :: s⟩ seen =
      if fits c then (some (c, ⟨offset + c.utf8Size, s⟩), seen)
      else (none, Failure.note seen ⟨offset, some c, expected⟩) := by
  have h : (char fits expected).report ⟨offset, c :: s⟩ seen =
      (if fits c then pure (c, ⟨offset + c.utf8Size, s⟩)
        else fail expected ⟨offset, c :: s⟩ :
        OptionT (StateM (Option Failure)) _).run.run seen := rfl
  rw [h]
  split <;> rfl

theorem Reports.char (fits : Char → Bool) (expected : List Expectation) :
    Reports (char fits expected) (Reader.char fits) := by
  rintro ⟨offset, rest⟩ seen
  cases rest with
  | nil => rfl
  | cons c rest =>
    rw [Reader.run_char_cons, report_char_cons]
    split <;> rfl

theorem Reports.repeated {x : Reporter α} {y : Reader α} (h : Reports x y) :
    Reports (repeated x) (Reader.repeated y) := by
  intro cursor
  induction hn : cursor.rest.length using Nat.strong_induction_on generalizing cursor with
  | _ n ih =>
    intro seen
    rw [report_repeated, Reader.run_repeated, ← h cursor seen]
    cases hx : x.report cursor seen with
    | mk result seen' =>
      cases result with
      | none => rfl
      | some pair =>
        obtain ⟨a, next⟩ := pair
        by_cases hlt : next.rest.length < cursor.rest.length
        · simp only [hlt, if_true]
          rw [ih next.rest.length (by omega) next rfl seen']
        · simp only [hlt, if_false]

theorem Reports.endOfText : Reports endOfText Reader.endOfText := by
  rintro ⟨offset, rest⟩ seen
  cases rest <;> rfl

theorem Reports.digit : Reports digit (Reader.char Char.isDigit) := .char _ _

theorem Reports.digits : Reports digits Reader.digits :=
  .bind .digit fun _ => .bind (.repeated .digit) fun _ => .pure _

theorem Reports.just (c : Char) : Reports (just c) (Reader.just c) := .char _ _

theorem Reports.operator : Reports operator Reader.operator :=
  .orElse (.map _ (.just '+')) (.map _ (.just '-'))

theorem Reports.die : Reports die Reader.die := .bind (.just 'd') fun _ => .digits

theorem Reports.token {x : Reporter (Option Sign)} {y : Reader (Option Sign)} (h : Reports x y) :
    Reports (token x) (Reader.token y) :=
  .bind .get fun _ => .bind h fun _ => .bind .digits fun _ => .bind (.orNot .die) fun _ =>
    .bind .get fun _ => .pure _

/-- The reporter of tokens reads what the reader of tokens does. -/
theorem Reports.tokens : Reports tokens Reader.tokens :=
  .bind (.token (.orNot .operator)) fun _ => .bind (.repeated (.token (.map _ .operator))) fun _ =>
    .bind .endOfText fun _ => .pure _

section

variable {x : Reporter α} {y : Reader α}

/-- Reporters in a row note the failures of the first, and then those of the second from where it
starts. -/
theorem furthest_bind (h : Reports x y) (f : α → Reporter β) (cursor : Cursor)
    (seen : Option Failure) :
    (x >>= f).furthest cursor seen =
      match y.run cursor with
      | none => x.furthest cursor seen
      | some (a, next) => (f a).furthest next (x.furthest cursor seen) := by
  simp only [furthest, report_bind, ← h cursor seen]
  cases x.report cursor seen with
  | mk result seen => cases result <;> rfl

/-- A choice notes the failures of the first reporter even where it falls back to the second. -/
theorem furthest_orElse (h : Reports x y) (x' : Reporter α) (cursor : Cursor)
    (seen : Option Failure) :
    (x <|> x').furthest cursor seen =
      match y.run cursor with
      | none => x'.furthest cursor (x.furthest cursor seen)
      | some _ => x.furthest cursor seen := by
  simp only [furthest, report_orElse, ← h cursor seen]
  cases x.report cursor seen with
  | mk result seen => cases result <;> rfl

theorem furthest_map (f : α → β) (x : Reporter α) (cursor : Cursor) (seen : Option Failure) :
    (f <$> x).furthest cursor seen = x.furthest cursor seen := by
  rw [← bind_pure_comp, furthest, report_bind, furthest]
  cases x.report cursor seen with
  | mk result seen => cases result <;> rfl

/-- Nothing fails where a reading may be left out. -/
theorem furthest_orNot (h : Reports x y) (cursor : Cursor) (seen : Option Failure) :
    (orNot x).furthest cursor seen = x.furthest cursor seen := by
  rw [orNot, furthest_orElse (h.map some), furthest_map]
  cases (some <$> y : Reader (Option α)).run cursor <;> rfl

theorem furthest_repeated (h : Reports x y) (cursor : Cursor) (seen : Option Failure) :
    (repeated x).furthest cursor seen =
      match y.run cursor with
      | none => x.furthest cursor seen
      | some (_, next) =>
        if next.rest.length < cursor.rest.length then
          (repeated x).furthest next (x.furthest cursor seen)
        else x.furthest cursor seen := by
  rw [furthest, report_repeated, ← h cursor seen]
  simp only [furthest]
  cases x.report cursor seen with
  | mk result seen =>
    cases result with
    | none => rfl
    | some pair =>
      dsimp only
      split <;> rfl

end

theorem furthest_char_cons (fits : Char → Bool) (expected : List Expectation) (offset : Nat)
    (c : Char) (s : List Char) (seen : Option Failure) :
    (char fits expected).furthest ⟨offset, c :: s⟩ seen =
      if fits c then seen else Failure.note seen ⟨offset, some c, expected⟩ := by
  rw [furthest, report_char_cons]
  split <;> rfl

/-- A run of digits notes nothing but the place where it ends, and names no expectation there. -/
theorem furthest_repeated_digit (offset : Nat) (s : List Char) (seen : Option Failure) :
    (repeated digit).furthest ⟨offset, s⟩ seen =
      Failure.note seen
        ⟨offset + byteLength (s.takeWhile Char.isDigit), (s.dropWhile Char.isDigit).head?, []⟩ := by
  induction s generalizing offset with
  | nil => rw [furthest_repeated .digit]; rfl
  | cons c s ih =>
    rw [furthest_repeated .digit, Reader.run_char_cons]
    have hdigit := furthest_char_cons Char.isDigit [] offset c s seen
    by_cases hc : c.isDigit
    · simp only [hc, if_true] at hdigit
      simp [hc, digit, hdigit, ← Nat.add_assoc, ← ih]
    · simp only [hc] at hdigit
      simp [hc, digit, hdigit]

/-- Digits are read to their end, and there a digit is missing. -/
theorem furthest_digits (offset : Nat) (s : List Char) (seen : Option Failure) :
    digits.furthest ⟨offset, s⟩ seen =
      Failure.note seen
        ⟨offset + byteLength (s.takeWhile Char.isDigit), (s.dropWhile Char.isDigit).head?, []⟩ := by
  cases s with
  | nil => rfl
  | cons c s =>
    rw [digits, furthest_bind .digit, Reader.run_char_cons]
    have hdigit := furthest_char_cons Char.isDigit [] offset c s seen
    by_cases hc : c.isDigit
    · simp only [hc, if_true] at hdigit
      simp only [hc, if_true]
      rw [bind_pure_comp, furthest_map, furthest_repeated_digit, digit, hdigit]
      simp [hc, Nat.add_assoc]
    · simp only [hc] at hdigit
      simp [hc, digit, hdigit]

theorem furthest_just (c : Char) (offset : Nat) (s : List Char) (seen : Option Failure) :
    (just c).furthest ⟨offset, s⟩ seen =
      if s.head? = some c then seen
      else Failure.note seen ⟨offset, s.head?, [.character c]⟩ := by
  cases s with
  | nil => rfl
  | cons d s =>
    rw [just, furthest_char_cons]
    simp

theorem run_just (c : Char) (offset : Nat) (s : List Char) :
    (Reader.just c).run ⟨offset, s⟩ =
      if s.head? = some c then some (c, ⟨offset + c.utf8Size, s.tail⟩) else none := by
  cases s with
  | nil => rfl
  | cons d s =>
    rw [Reader.just, Reader.run_char_cons]
    by_cases h : d = c
    · simp [h]
    · simp [h]

theorem furthest_operator_symbol (sign : Sign) (offset : Nat) (s : List Char)
    (seen : Option Failure) :
    operator.furthest ⟨offset, sign.symbol :: s⟩ seen =
      match sign with
      | .plus => seen
      | .minus => Failure.note seen ⟨offset, some '-', [.character '+']⟩ := by
  cases sign <;> rfl

theorem furthest_operator (offset : Nat) {s : List Char} (seen : Option Failure)
    (h : ∀ c ∈ s.head?, isOperator c = false) :
    operator.furthest ⟨offset, s⟩ seen =
      Failure.note (Failure.note seen ⟨offset, s.head?, [.character '+']⟩)
        ⟨offset, s.head?, [.character '-']⟩ := by
  have hplus : s.head? ≠ some '+' := fun hs => absurd (h '+' hs) (by decide)
  have hminus : s.head? ≠ some '-' := fun hs => absurd (h '-' hs) (by decide)
  rw [operator, furthest_orElse (.map _ (.just '+')), StateT.run_map, run_just, if_neg hplus,
    furthest_map, furthest_map, furthest_just, furthest_just, if_neg hplus, if_neg hminus]
  rfl

theorem furthest_die (offset : Nat) (s : List Char) (seen : Option Failure) :
    die.furthest ⟨offset, s⟩ seen =
      if s.head? = some 'd' then digits.furthest ⟨offset + 'd'.utf8Size, s.tail⟩ seen
      else Failure.note seen ⟨offset, s.head?, [.character 'd']⟩ := by
  rw [die, furthest_bind (.just 'd'), run_just, furthest_just]
  by_cases h : s.head? = some 'd'
  · simp [h]
  · simp [h]

theorem furthest_endOfText (offset : Nat) (s : List Char) (seen : Option Failure) :
    endOfText.furthest ⟨offset, s⟩ seen =
      if s.isEmpty then seen else Failure.note seen ⟨offset, s.head?, [.endOfText]⟩ := by
  cases s <;> rfl

theorem furthest_token {x : Reporter (Option Sign)} {y : Reader (Option Sign)} (h : Reports x y)
    (cursor : Cursor) (seen : Option Failure) :
    (token x).furthest cursor seen =
      match y.run cursor with
      | none => x.furthest cursor seen
      | some (_, afterSign) =>
        match Reader.digits.run afterSign with
        | none => digits.furthest afterSign (x.furthest cursor seen)
        | some (_, afterFirst) =>
          die.furthest afterFirst (digits.furthest afterSign (x.furthest cursor seen)) := by
  have hget : (token x).furthest cursor seen =
      (do
        let sign? ← x
        let first ← digits
        let sides? ← orNot die
        let stop ← get
        let raw := cursor.rest.take (cursor.rest.length - stop.rest.length)
        return ({ sign?, first, sides?, raw, span := ⟨cursor.offset, stop.offset⟩ } : Token)
        : Reporter Token).furthest cursor seen := rfl
  rw [hget, furthest_bind h]
  cases y.run cursor with
  | none => rfl
  | some pair =>
    obtain ⟨sign?, afterSign⟩ := pair
    dsimp only
    rw [furthest_bind .digits]
    cases Reader.digits.run afterSign with
    | none => rfl
    | some pair =>
      obtain ⟨first, afterFirst⟩ := pair
      dsimp only
      rw [furthest_bind (.orNot .die), furthest_orNot .die]
      split <;> rfl

end Reporter
end FairDice
