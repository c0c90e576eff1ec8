import FairDice.Json.Writer
import FairDice.Proofs.Quoting
import FairDice.Proofs.Spelling

/-!
# JSON values read back from their text

Numbers and the words `null`, `true` and `false` end only where something else
comes behind them, so that reading a value leaves its last word open; a bracket,
a comma or the end of the text closes it.
-/
namespace FairDice.Json

mutual

/-- All numbers with a fraction or an exponent in it have the text of one. -/
def IsWellFormed : Json → Prop
  | .decimal text => number? text.toList = some (.decimal text)
  | .arr items => ItemsWellFormed items
  | .obj fields => FieldsWellFormed fields
  | .null | .bool _ | .int _ | .str _ => True

def ItemsWellFormed : List Json → Prop
  | [] => True
  | item :: rest => item.IsWellFormed ∧ ItemsWellFormed rest

def FieldsWellFormed : List (String × Json) → Prop
  | [] => True
  | (_, value) :: rest => value.IsWellFormed ∧ FieldsWellFormed rest

end

/-- The character goes on with a bare word. -/
def isBare (c : Char) : Bool := !Reading.isBlank c && !Reading.isPunctuation c && c != '"'

theorem isBare_of_isDigit {c : Char} (h : c.isDigit) : isBare c := by
  rw [isBare, Bool.and_eq_true, Bool.and_eq_true]
  simp only [Reading.isBlank, Reading.isPunctuation, List.contains_iff_mem, Bool.not_eq_true',
    bne_iff_ne, ne_eq, ← Bool.not_eq_true, List.mem_cons, List.not_mem_nil, or_false]
  refine ⟨⟨?_, ?_⟩, ?_⟩
  · rintro (rfl | rfl | rfl | rfl) <;> exact absurd h (by decide)
  · rintro (rfl | rfl | rfl | rfl | rfl | rfl) <;> exact absurd h (by decide)
  · rintro rfl
    exact absurd h (by decide)

theorem isBare_of_isDigits {s : List Char} (h : isDigits s) : ∀ c ∈ s, isBare c := by
  rw [isDigits, Bool.and_eq_true, List.all_eq_true] at h
  exact fun c hc => isBare_of_isDigit (h.2 c hc)

theorem isBare_of_isExponent {s : List Char} (h : isFractionOrExponent.isExponent s) :
    ∀ c ∈ s, isBare c := by
  cases s with
  | nil => simp
  | cons e rest =>
    unfold isFractionOrExponent.isExponent at h
    rw [Bool.and_eq_true] at h
    obtain ⟨he, hrest⟩ := h
    rw [List.forall_mem_cons]
    constructor
    · simp only [Bool.or_eq_true, decide_eq_true_eq] at he
      rcases he with rfl | rfl <;> decide
    · split at hrest
      · exact List.forall_mem_cons.mpr ⟨by decide, isBare_of_isDigits hrest⟩
      · exact List.forall_mem_cons.mpr ⟨by decide, isBare_of_isDigits hrest⟩
      · exact isBare_of_isDigits hrest

theorem isBare_of_isFractionOrExponent {s : List Char} (h : isFractionOrExponent s) :
    ∀ c ∈ s, isBare c := by
  unfold isFractionOrExponent at h
  split at h
  · next rest =>
    rw [Bool.and_eq_true] at h
    rw [List.forall_mem_cons, ← List.takeWhile_append_dropWhile (p := Char.isDigit) (l := rest),
      List.forall_mem_append]
    refine ⟨by decide, isBare_of_isDigits h.1, ?_⟩
    rcases (Bool.or_eq_true _ _).mp h.2 with hempty | hexponent
    · simp [List.isEmpty_iff.mp hempty]
    · exact isBare_of_isExponent hexponent
  · exact isBare_of_isExponent h

theorem isBare_of_number? {s : List Char} {value : Json} (h : number? s = some value) :
    ∀ c ∈ s, isBare c := by
  have hunsigned : ∀ unsigned : List Char, isWhole (unsigned.takeWhile Char.isDigit) →
      unsigned.dropWhile Char.isDigit = [] ∨
        isFractionOrExponent (unsigned.dropWhile Char.isDigit) → ∀ c ∈ unsigned, isBare c := by
    intro unsigned hwhole htail
    rw [isWhole, Bool.and_eq_true] at hwhole
    rw [← List.takeWhile_append_dropWhile (p := Char.isDigit) (l := unsigned),
      List.forall_mem_append]
    refine ⟨isBare_of_isDigits hwhole.1, ?_⟩
    rcases htail with hnil | htail
    · simp [hnil]
    · exact isBare_of_isFractionOrExponent htail
  have hbody : ∀ c ∈ if s.head? = some '-' then s.tail else s, isBare c := by
    unfold number? at h
    dsimp only at h
    generalize (if s.head? = some '-' then s.tail else s) = unsigned at h ⊢
    split at h
    · cases h
    next hwhole =>
      refine hunsigned unsigned (by simpa using hwhole) ?_
      split at h
      · next htail =>
        rw [Bool.and_eq_true, List.isEmpty_iff] at htail
        exact .inl htail.1
      split at h
      · next htail =>
        rw [Bool.or_eq_true, List.isEmpty_iff] at htail
        exact htail
      · cases h
  split at hbody
  · next hminus =>
    obtain ⟨rest, rfl⟩ := List.head?_eq_some_iff.mp hminus
    exact List.forall_mem_cons.mpr ⟨by decide, hbody⟩
  · exact hbody

/-- A number is read as one wherever it is a word. -/
theorem ofWord?_of_number? {s : List Char} {value : Json} (h : number? s = some value) :
    ofWord? s = some value := by
  have hne : ∀ word : List Char, number? word = none → s ≠ word := by
    rintro word hword rfl
    rw [hword] at h
    cases h
  rw [ofWord?, if_neg (hne _ (by decide)), if_neg (hne _ (by decide)), if_neg (hne _ (by decide)),
    h]

theorem number?_ne_nil {s : List Char} {value : Json} (h : number? s = some value) : s ≠ [] := by
  rintro rfl
  exact absurd h (by simp [number?, isWhole, isDigits])

namespace Reading

variable {o o' : Outline} {s : List Char} {value : Json} {outer : List Frame}

/-- A text read from `o` on comes to `o'`, perhaps with a word at its end that is not closed yet. -/
def Takes (o : Outline) (s : List Char) (o' : Outline) : Prop :=
  ∃ r, run ⟨.between, o⟩ s = some r ∧ r.settle = some o'

theorem stepOutside_bare {r : Reading} {c : Char} (h : isBare c) :
    r.stepOutside c =
      match r.scan with
      | .word done => some ⟨.word (c :: done), r.outline⟩
      | _ => some ⟨.word [c], r.outline⟩ := by
  simp only [isBare, Bool.and_eq_true, Bool.not_eq_true', bne_iff_ne] at h
  obtain ⟨⟨hblank, hpunctuation⟩, hquote⟩ := h
  obtain ⟨scan, outline⟩ := r
  cases scan <;> simp [stepOutside, hblank, hpunctuation, hquote]

theorem run_word {done : List Char} (h : ∀ c ∈ s, isBare c) :
    run ⟨.word done, o⟩ s = some ⟨.word (s.reverse ++ done), o⟩ := by
  induction s generalizing done with
  | nil => rfl
  | cons c s ih =>
    rw [List.forall_mem_cons] at h
    have hstep : step ⟨.word done, o⟩ c = some ⟨.word (c :: done), o⟩ := stepOutside_bare h.1
    rw [run_cons, hstep, Option.bind_some, ih h.2]
    simp

/-- A bare word stands for its value once something else comes. -/
theorem takes_word (hne : s ≠ []) (hbare : ∀ c ∈ s, isBare c) (hvalue : ofWord? s = some value)
    (ho : o.aroundValue? = some outer) : Takes o s (.deliver value outer) := by
  obtain ⟨c, s, rfl⟩ := List.exists_cons_of_ne_nil hne
  rw [List.forall_mem_cons] at hbare
  have hstep : step ⟨.between, o⟩ c = some ⟨.word [c], o⟩ := stepOutside_bare hbare.1
  refine ⟨⟨.word (s.reverse ++ [c]), o⟩, ?_, ?_⟩
  · rw [run_cons, hstep, Option.bind_some, run_word hbare.2]
  · simp [settle, hvalue, Outline.scalar, ho]

/-- A number that stands by itself is delivered. -/
theorem takes_number (h : number? s = some value) (ho : o.aroundValue? = some outer) :
    Takes o s (.deliver value outer) :=
  takes_word (number?_ne_nil h) (isBare_of_number? h) (ofWord?_of_number? h) ho

/-- Nothing is left open where the scan stands between words. -/
theorem takes_of_run (h : run ⟨.between, o⟩ s = some ⟨.between, o'⟩) : Takes o s o' := ⟨_, h, rfl⟩

theorem step_punctuation {r : Reading} {c : Char} (hc : isPunctuation c) (h : r.settle = some o) :
    r.step c = (o.punctuation c).map (⟨.between, ·⟩) := by
  have hblank : isBlank c = false := by
    simp only [isPunctuation, List.contains_iff_mem, List.mem_cons, List.not_mem_nil,
      or_false] at hc
    rcases hc with rfl | rfl | rfl | rfl | rfl | rfl <;> decide
  have houtside : r.stepOutside c = (o.punctuation c).map (⟨.between, ·⟩) := by
    cases hnext : o.punctuation c <;> simp [stepOutside, hblank, hc, h, hnext]
  obtain ⟨scan, outline⟩ := r
  cases scan with
  | between => exact houtside
  | word done => exact houtside
  | text done half => cases h
  | escape done half => cases h
  | code done half digits => cases h

/-- Punctuation closes what was read before it. -/
theorem Takes.run_punctuation {c : Char} (h : Takes o s o') (hc : isPunctuation c)
    (t : List Char) :
    run ⟨.between, o⟩ (s ++ c :: t) = ((o'.punctuation c).map (⟨.between, ·⟩)).bind (run · t) := by
  obtain ⟨r, hrun, hsettle⟩ := h
  rw [run_append, hrun, Option.bind_some, run_cons, step_punctuation hc hsettle]

theorem run_punctuation {c : Char} (hc : isPunctuation c) (t : List Char) :
    run ⟨.between, o⟩ (c :: t) = ((o.punctuation c).map (⟨.between, ·⟩)).bind (run · t) :=
  (takes_of_run (run_nil _)).run_punctuation hc t

theorem quoted_of_aroundValue? (text : String) (ho : o.aroundValue? = some outer) :
    o.quoted text = some (.deliver (.str text) outer) := by
  cases o <;> simp_all [Outline.aroundValue?, Outline.quoted, Outline.scalar]

/-- Brackets are read around what is between them. -/
theorem run_brackets {first last : Char} {opened closed : Outline} (hfirst : isPunctuation first)
    (hlast : isPunctuation last) (hopened : o.punctuation first = some opened)
    (hinside : Takes opened s o') (hclosed : o'.punctuation last = some closed) :
    run ⟨.between, o⟩ (first :: s ++ [last]) = some ⟨.between, closed⟩ := by
  rw [List.cons_append, run_punctuation hfirst, hopened, Option.map_some, Option.bind_some,
    hinside.run_punctuation hlast, hclosed]
  rfl

/-- The name of a field, and the colon behind it. -/
theorem run_name {done : List (String × Json)} {name : String}
    (ho : o.quoted name = some (.nameRead done name outer)) (t : List Char) :
    run ⟨.between, o⟩ (quote name ++ ':' :: t) =
      run ⟨.between, .needValue (.fields done name :: outer)⟩ t := by
  have hname : Takes o (quote name) (.nameRead done name outer) :=
    takes_of_run (by rw [run_quote, ho]; rfl)
  rw [hname.run_punctuation (by decide)]
  rfl

theorem itemChars_cons_cons (item next : Json) (rest : List Json) :
    itemChars (item :: next :: rest) = item.chars ++ ',' :: itemChars (next :: rest) := rfl

theorem fieldChars_cons_cons (name : String) (value : Json) (next : String × Json)
    (rest : List (String × Json)) :
    fieldChars ((name, value) :: next :: rest) =
      quote name ++ ':' :: (value.chars ++ ',' :: fieldChars (next :: rest)) := by
  rw [fieldChars, List.append_assoc, List.cons_append]
  simp

mutual

/-- A value is read from its text wherever one may stand. -/
theorem takes_chars : ∀ (value : Json), value.IsWellFormed →
    ∀ {o : Outline} {outer : List Frame}, o.aroundValue? = some outer →
      Takes o value.chars (.deliver value outer)
  | .null, _, _, _, ho => takes_word (by decide) (List.all_eq_true.mp (by decide)) rfl ho
  | .bool true, _, _, _, ho => takes_word (by decide) (List.all_eq_true.mp (by decide)) rfl ho
  | .bool false, _, _, _, ho => takes_word (by decide) (List.all_eq_true.mp (by decide)) rfl ho
  | .int value, _, _, _, ho => takes_number (number?_toString value) ho
  | .decimal _, h, _, _, ho => takes_number h ho
  | .str text, _, _, _, ho => takes_of_run <| by
    rw [chars, run_quote, quoted_of_aroundValue? text ho, Option.map_some]
  | .arr [], _, _, _, ho =>
    takes_of_run (run_brackets (by decide) (by decide) (by simp [Outline.punctuation, ho]; rfl)
      (takes_of_run (run_nil _)) rfl)
  | .arr (item :: rest), h, o, outer, ho => by
    have hopened : o.punctuation '[' = some (.itemOrEnd outer) := by simp [Outline.punctuation, ho]
    have hitems := takes_itemChars (item :: rest) h (List.cons_ne_nil _ _)
      (o := .itemOrEnd outer) rfl
    have hclosed : (Outline.itemRead ((item :: rest).reverse ++ []) outer).punctuation ']' =
        some (.deliver (.arr (item :: rest)) outer) := by
      rw [List.append_nil, Outline.punctuation, List.reverse_reverse]
    exact takes_of_run (run_brackets (by decide) (by decide) hopened hitems hclosed)
  | .obj [], _, _, _, ho =>
    takes_of_run (run_brackets (by decide) (by decide) (by simp [Outline.punctuation, ho]; rfl)
      (takes_of_run (run_nil _)) rfl)
  | .obj (field :: rest), h, o, outer, ho => by
    have hopened : o.punctuation '\x7b' = some (.nameOrEnd outer) := by
      simp [Outline.punctuation, ho]
    have hfields := takes_fieldChars (field :: rest) h (List.cons_ne_nil _ _)
      (o := .nameOrEnd outer) (fun _ => rfl)
    have hclosed : (Outline.fieldRead ((field :: rest).reverse ++ []) outer).punctuation '\x7d' =
        some (.deliver (.obj (field :: rest)) outer) := by
      rw [List.append_nil, Outline.punctuation, List.reverse_reverse]
    exact takes_of_run (run_brackets (by decide) (by decide) hopened hfields hclosed)

/-- Items are read one behind the other, to the last of them. -/
theorem takes_itemChars : ∀ (items : List Json), ItemsWellFormed items → items ≠ [] →
    ∀ {o : Outline} {done : List Json} {outer : List Frame},
      o.aroundValue? = some (.items done :: outer) →
        Takes o (itemChars items) (.itemRead (items.reverse ++ done) outer)
  | [], _, hne, _, _, _, _ => absurd rfl hne
  | [item], h, _, _, _, _, ho => by
    rw [itemChars]
    exact takes_chars item h.1 ho
  | item :: next :: rest, h, _, o, done, outer, ho => by
    have hitem : Takes o item.chars (.itemRead (item :: done) outer) := takes_chars item h.1 ho
    obtain ⟨r, hrun, hsettle⟩ := takes_itemChars (next :: rest) h.2 (List.cons_ne_nil _ _)
      (o := .needValue (.items (item :: done) :: outer)) rfl
    refine ⟨r, ?_, ?_⟩
    · rw [itemChars_cons_cons, hitem.run_punctuation (by decide)]
      exact hrun
    · rw [hsettle]
      simp

/-- The written fields are taken as the fields they are. -/
theorem takes_fieldChars : ∀ (fields : List (String × Json)), FieldsWellFormed fields →
    fields ≠ [] → ∀ {o : Outline} {done : List (String × Json)} {outer : List Frame},
      (∀ name, o.quoted name = some (.nameRead done name outer)) →
        Takes o (fieldChars fields) (.fieldRead (fields.reverse ++ done) outer)
  | [], _, hne, _, _, _, _ => absurd rfl hne
  | [(name, value)], h, _, o, done, outer, ho => by
    obtain ⟨r, hrun, hsettle⟩ := takes_chars value h.1
      (o := .needValue (.fields done name :: outer)) rfl
    exact ⟨r, by rw [fieldChars, run_name (ho name), hrun], hsettle⟩
  | (name, value) :: next :: rest, h, _, o, done, outer, ho => by
    have ho' : (Outline.needValue (.fields done name :: outer)).aroundValue? =
        some (.fields done name :: outer) := rfl
    have hvalue : Takes (.needValue (.fields done name :: outer)) value.chars
        (.fieldRead ((name, value) :: done) outer) := takes_chars value h.1 ho'
    obtain ⟨r, hrun, hsettle⟩ := takes_fieldChars (next :: rest) h.2 (List.cons_ne_nil _ _)
      (o := .needName ((name, value) :: done) outer) (fun _ => rfl)
    refine ⟨r, ?_, ?_⟩
    · rw [fieldChars_cons_cons, run_name (ho name), hvalue.run_punctuation (by decide)]
      exact hrun
    · rw [hsettle]
      simp

end

end Reading

/-- The text of a value is read as the value. -/
theorem read?_write {value : Json} (h : value.IsWellFormed) : read? value.write = some value := by
  have ho : (Outline.needValue []).aroundValue? = some [] := rfl
  obtain ⟨r, hrun, hsettle⟩ := Reading.takes_chars value h ho
  rw [Reading.run] at hrun
  rw [read?, toList_write, hrun]
  simp [hsettle, Outline.deliver, Outline.value?]

end FairDice.Json
