import FairDice.Proofs.Rereading
import FairDice.Stored.Evaluation
import FairDice.Stored.Limits
import FairDice.Stored.Terms
import Mathlib.Data.List.Nodup

/-!
# Stored values are read back as they were

This goes for the JSON value and for its text. A record may have its fields in
any order and others among them: only the fields that it is made of are looked
up, and each of them by its name.
-/
namespace FairDice

namespace Json

def isScalar : Json → Bool
  | .arr _ | .obj _ => false
  | .null | .bool _ | .int _ | .decimal _ | .str _ => true

mutual

/-- The other value differs only in the fields of objects: they may stand in any order, and fields
of further names may stand among them. -/
inductive Rearranges : Json → Json → Prop
  | scalar {value : Json} : value.isScalar → Rearranges value value
  | arr {items items' : List Json} :
    RearrangesItems items items' → Rearranges (.arr items) (.arr items')
  | obj {fields known unknown fields' : List (String × Json)} :
    RearrangesFields fields known → (∀ field ∈ unknown, field.1 ∉ fields.map Prod.fst) →
      fields'.Perm (known ++ unknown) → Rearranges (.obj fields) (.obj fields')

inductive RearrangesItems : List Json → List Json → Prop
  | nil : RearrangesItems [] []
  | cons {item item' : Json} {items items' : List Json} :
    Rearranges item item' → RearrangesItems items items' →
      RearrangesItems (item :: items) (item' :: items')

inductive RearrangesFields : List (String × Json) → List (String × Json) → Prop
  | nil : RearrangesFields [] []
  | cons {name : String} {value value' : Json} {fields fields' : List (String × Json)} :
    Rearranges value value' → RearrangesFields fields fields' →
      RearrangesFields ((name, value) :: fields) ((name, value') :: fields')

end

mutual

/-- A value is one of its own rearrangements. -/
theorem Rearranges.refl : ∀ value : Json, Rearranges value value
  | .null | .bool _ | .int _ | .decimal _ | .str _ => .scalar rfl
  | .arr items => .arr (RearrangesItems.refl items)
  | .obj fields =>
    @Rearranges.obj fields fields [] fields (RearrangesFields.refl fields) (by simp) (by simp)

theorem RearrangesItems.refl : ∀ items : List Json, RearrangesItems items items
  | [] => .nil
  | item :: items => .cons (Rearranges.refl item) (RearrangesItems.refl items)

theorem RearrangesFields.refl : ∀ fields : List (String × Json), RearrangesFields fields fields
  | [] => .nil
  | (_, value) :: fields => .cons (Rearranges.refl value) (RearrangesFields.refl fields)

end

/-- A scalar has no rearrangement but itself. -/
theorem Rearranges.eq_of_isScalar {value j : Json} (h : Rearranges value j)
    (hvalue : value.isScalar) : j = value := by
  cases h with
  | scalar _ => rfl
  | arr _ => cases hvalue
  | obj _ _ _ => cases hvalue

/-- A field is the one that is looked up if no other of its name says anything else. -/
theorem field?_eq_some {fields : List (String × Json)} {name : String} {value : Json}
    (h : (name, value) ∈ fields) (hunique : ∀ other, (name, other) ∈ fields → other = value) :
    (obj fields).field? name = some value := by
  rw [field?]
  cases hlookup : fields.reverse.lookup name with
  | none =>
    have hne := List.lookup_eq_none_iff.mp hlookup (name, value) (List.mem_reverse.mpr h)
    simp at hne
  | some other =>
    obtain ⟨front, back, hfields, -⟩ := List.lookup_eq_some_iff.mp hlookup
    have hother : (name, other) ∈ fields.reverse := by simp [hfields]
    rw [hunique other (List.mem_reverse.mp hother)]

theorem RearrangesFields.map_fst_eq {fields known : List (String × Json)}
    (h : RearrangesFields fields known) : known.map Prod.fst = fields.map Prod.fst := by
  induction known generalizing fields with
  | nil => cases h; rfl
  | cons field known ih =>
    cases h with
    | cons _ hrest => rw [List.map_cons, List.map_cons, ih hrest]

theorem RearrangesFields.exists_mem {fields known : List (String × Json)} {name : String}
    {value : Json} (h : RearrangesFields fields known) (hmem : (name, value) ∈ fields) :
    ∃ value', (name, value') ∈ known ∧ Rearranges value value' := by
  induction fields generalizing known with
  | nil => cases hmem
  | cons field fields ih =>
    cases h with
    | cons hvalue hrest =>
      rcases List.mem_cons.mp hmem with heq | hmem
      · cases heq
        exact ⟨_, List.mem_cons_self, hvalue⟩
      · obtain ⟨value', hmem', hvalue'⟩ := ih hrest hmem
        exact ⟨value', List.mem_cons_of_mem _ hmem', hvalue'⟩

section

variable {fields part : List (String × Json)} {name : String} {value j : Json}

/-- A field is found by its name, wherever it stands now. -/
theorem Rearranges.field? (h : Rearranges (.obj fields) j) (hnodup : (fields.map Prod.fst).Nodup)
    (hmem : (name, value) ∈ fields) :
    ∃ value', j.field? name = some value' ∧ Rearranges value value' := by
  cases h with
  | scalar hscalar => cases hscalar
  | @obj _ known unknown fields' hknown hunknown hperm =>
    obtain ⟨value', hmem', hvalue⟩ := hknown.exists_mem hmem
    rw [← hknown.map_fst_eq] at hnodup
    refine ⟨value', field?_eq_some ?_ ?_, hvalue⟩
    · exact hperm.mem_iff.mpr (List.mem_append_left _ hmem')
    · intro other hother
      rcases List.mem_append.mp (hperm.mem_iff.mp hother) with hother | hother
      · exact congrArg Prod.snd (List.inj_on_of_nodup_map hnodup hother hmem' rfl)
      · exact absurd (List.mem_map.mpr ⟨_, hmem, rfl⟩) (hunknown (name, other) hother)

theorem Rearranges.exists_obj (h : Rearranges (.obj fields) j) : ∃ fields', j = .obj fields' := by
  cases h with
  | scalar hscalar => cases hscalar
  | obj _ _ _ => exact ⟨_, rfl⟩

/-- The fields that a record is made of are found together, in their order. -/
theorem Rearranges.record? (h : Rearranges (.obj fields) j) (hnodup : (fields.map Prod.fst).Nodup)
    (hpart : part ⊆ fields) :
    ∃ values, j.record? (part.map Prod.fst) = some values ∧
      RearrangesItems (part.map Prod.snd) values := by
  obtain ⟨fields', rfl⟩ := h.exists_obj
  rw [Json.record?]
  induction part with
  | nil => exact ⟨[], rfl, .nil⟩
  | cons field part ih =>
    obtain ⟨hfield, hpart⟩ := List.cons_subset.mp hpart
    obtain ⟨value', hvalue, hrearranges⟩ := h.field? hnodup hfield
    obtain ⟨values, hvalues, hrest⟩ := ih hpart
    refine ⟨value' :: values, ?_, .cons hrearranges hrest⟩
    rw [List.map_cons, List.mapM_cons, hvalue, hvalues]
    rfl

/-- A record that is there in full is there in parts. -/
theorem partialRecord?_of_record? {names : List String} {values : List Json}
    (h : (obj fields).record? names = some values) :
    (obj fields).partialRecord? names = some (values.map some) := by
  rw [Json.record?] at h
  rw [partialRecord?]
  induction names generalizing values with
  | nil =>
    cases h
    rfl
  | cons name names ih =>
    rw [List.mapM_cons] at h
    obtain ⟨value, hvalue, h⟩ := Option.bind_eq_some_iff.mp h
    obtain ⟨rest, hrest, h⟩ := Option.bind_eq_some_iff.mp h
    cases h
    rw [List.map_cons, hvalue, Option.some.inj (ih hrest), List.map_cons]

end

/-- What is stored is read back from each of its rearrangements. -/
def Restores {α : Type} (toJson : α → Json) (ofJson? : Json → Option α) : Prop :=
  ∀ x j, (toJson x).Rearranges j → ofJson? j = some x

section

variable {α : Type} {toJson : α → Json} {ofJson? : Json → Option α} {j : Json}

/-- Nothing in a value without parts can be rearranged. -/
theorem Restores.of_isScalar (hscalar : ∀ x, (toJson x).isScalar)
    (hread : ∀ x, ofJson? (toJson x) = some x) : Restores toJson ofJson? := by
  intro x j h
  rw [h.eq_of_isScalar (hscalar x), hread]

/-- A list is read item by item. -/
theorem Restores.list? (hread : Restores toJson ofJson?) :
    Restores (fun xs => .arr (xs.map toJson)) (Json.list? ofJson?) := by
  intro xs j h
  cases h with
  | scalar hscalar => cases hscalar
  | @arr _ items h =>
    rw [Json.list?]
    induction xs generalizing items with
    | nil => cases h; rfl
    | cons x xs ih =>
      cases h with
      | cons hitem hrest =>
        rw [List.mapM_cons, hread x _ hitem, ih hrest]
        rfl

theorem restores_str : Restores str str? := .of_isScalar (fun _ => rfl) (fun _ => rfl)

theorem restores_uint32 : Restores ofUInt32 uint32? := .of_isScalar (fun _ => rfl) uint32?_ofUInt32

theorem restores_uint64 : Restores ofUInt64 uint64? := .of_isScalar (fun _ => rfl) uint64?_ofUInt64

theorem restores_int64 : Restores ofInt64 int64? := .of_isScalar (fun _ => rfl) int64?_ofInt64

theorem itemsWellFormed_map (h : ∀ x, (toJson x).IsWellFormed) (xs : List α) :
    ItemsWellFormed (xs.map toJson) := by
  induction xs with
  | nil => trivial
  | cons x xs ih => exact ⟨h x, ih⟩

end
end Json

open Json (Restores)

theorem Sign.restores : Restores Sign.toJson Sign.ofJson? :=
  .of_isScalar (fun _ => rfl) Sign.ofJson?_toJson

theorem Sign.restores_inTerm : Restores Sign.toJson Sign.ofTermJson? :=
  .of_isScalar (fun _ => rfl) Sign.ofTermJson?_toJson

theorem Mode.restores : Restores Mode.toJson Mode.ofJson? :=
  .of_isScalar (fun _ => rfl) Mode.ofJson?_toJson

theorem Rejection.Kind.restores : Restores Rejection.Kind.toJson Rejection.Kind.ofJson? :=
  .of_isScalar (fun _ => rfl) Rejection.Kind.ofJson?_toJson

/-- The tag of a term is found wherever it stands, and the rest is read around it. -/
theorem Term.restores : Restores Term.toJson Term.ofJson? := by
  intro term j h
  cases term with
  | dice sign count sides raw =>
    obtain ⟨tag, htag, hkind⟩ := h.field? (by simp) List.mem_cons_self
    obtain ⟨values, hrecord, hvalues⟩ := h.record? (by simp) (List.subset_cons_self _ _)
    obtain ⟨fields, rfl⟩ := h.exists_obj
    obtain _ | ⟨hsign, _ | ⟨hcount, _ | ⟨hsides, _ | ⟨hraw, _ | _⟩⟩⟩⟩ := hvalues
    cases hkind.eq_of_isScalar rfl
    simp only [List.map_cons, List.map_nil] at hrecord
    simp [ofJson?, tagged?, htag, diceOfJson?, hrecord, Sign.restores_inTerm _ _ hsign,
      Json.restores_uint32 _ _ hcount, Json.restores_uint32 _ _ hsides, Json.restores_str _ _ hraw]
  | constant sign value raw =>
    obtain ⟨tag, htag, hkind⟩ := h.field? (by simp) List.mem_cons_self
    obtain ⟨values, hrecord, hvalues⟩ := h.record? (by simp) (List.subset_cons_self _ _)
    obtain ⟨fields, rfl⟩ := h.exists_obj
    obtain _ | ⟨hsign, _ | ⟨hvalue, _ | ⟨hraw, _ | _⟩⟩⟩ := hvalues
    cases hkind.eq_of_isScalar rfl
    simp only [List.map_cons, List.map_nil] at hrecord
    simp [ofJson?, tagged?, htag, constantOfJson?, hrecord, Sign.restores_inTerm _ _ hsign,
      Json.restores_uint64 _ _ hvalue, Json.restores_str _ _ hraw]

theorem TermRoll.restores : Restores TermRoll.toJson TermRoll.ofJson? := by
  intro roll j h
  obtain ⟨values, hrecord, hvalues⟩ := h.record? (by simp) (List.Subset.refl _)
  obtain _ | ⟨hterm, _ | ⟨hrolls, _ | ⟨htotal, _ | _⟩⟩⟩ := hvalues
  simp only [List.map_cons, List.map_nil] at hrecord
  simp [ofJson?, hrecord, Json.restores_str _ _ hterm, Json.restores_uint32.list? _ _ hrolls,
    Json.restores_int64 _ _ htotal]

theorem RollSet.restores : Restores RollSet.toJson RollSet.ofJson? := by
  intro set j h
  obtain ⟨values, hrecord, hvalues⟩ := h.record? (by simp) (List.Subset.refl _)
  obtain _ | ⟨hterms, _ | ⟨htotal, _ | _⟩⟩ := hvalues
  simp only [List.map_cons, List.map_nil] at hrecord
  simp [ofJson?, hrecord, TermRoll.restores.list? _ _ hterms, Json.restores_int64 _ _ htotal]

theorem Evaluation.restores : Restores Evaluation.toJson Evaluation.ofJson? := by
  intro e j h
  obtain ⟨values, hrecord, hvalues⟩ := h.record? (by simp) (List.Subset.refl _)
  obtain _ | ⟨hexpression, _ | ⟨hmode, _ | ⟨hsets, _ | ⟨hindex, _ | ⟨htotal, _ | _⟩⟩⟩⟩⟩ := hvalues
  simp only [List.map_cons, List.map_nil] at hrecord
  simp [ofJson?, hrecord, Json.restores_str _ _ hexpression, Mode.restores _ _ hmode,
    RollSet.restores.list? _ _ hsets, Json.restores_uint64 _ _ hindex,
    Json.restores_int64 _ _ htotal]

namespace Limits

theorem setAll_bounds (limits : Limits) :
    default.setAll [.maxTerms limits.maxTerms, .maxSides limits.maxSides,
      .maxDice limits.maxDice] = limits := by
  simp [setAll, set, withMaxTerms, withMaxSides, withMaxDice, limits.maxTerms_le,
    limits.maxSides_le, limits.maxDice_le]

theorem bound?_int {size other n : Nat} (h : n < size) :
    bound? size other (some (.int n)) = some n := by
  simp [bound?, Json.nat?, h]

/-- Limits are read from what is there of their bounds, each in its own word. -/
theorem ofJson?_eq_some_iff {j : Json} {limits : Limits} :
    ofJson? j = some limits ↔ ∃ terms? sides? dice? terms sides dice,
      j.partialRecord? ["maxTerms", "maxSides", "maxDice"] = some [terms?, sides?, dice?] ∧
      bound? UInt64.size default.maxTerms terms? = some terms ∧
      bound? UInt32.size default.maxSides sides? = some sides ∧
      bound? UInt32.size default.maxDice dice? = some dice ∧
      default.setAll [.maxTerms terms, .maxSides sides, .maxDice dice] = limits := by
  constructor
  · intro h
    rw [ofJson?] at h
    obtain ⟨items, hitems, h⟩ := Option.bind_eq_some_iff.mp h
    split at h
    · obtain ⟨terms, hterms, h⟩ := Option.bind_eq_some_iff.mp h
      obtain ⟨sides, hsides, h⟩ := Option.bind_eq_some_iff.mp h
      obtain ⟨dice, hdice, h⟩ := Option.bind_eq_some_iff.mp h
      exact ⟨_, _, _, _, _, _, hitems, hterms, hsides, hdice, Option.some.inj h⟩
    · cases h
  · rintro ⟨terms?, sides?, dice?, terms, sides, dice, hitems, hterms, hsides, hdice, rfl⟩
    refine Option.bind_eq_some_iff.mpr ⟨_, hitems, ?_⟩
    refine Option.bind_eq_some_iff.mpr ⟨_, hterms, ?_⟩
    refine Option.bind_eq_some_iff.mpr ⟨_, hsides, ?_⟩
    exact Option.bind_eq_some_iff.mpr ⟨_, hdice, rfl⟩

/-- Limits are restored from any rearrangement of what was stored. -/
theorem restores : Restores Limits.toJson Limits.ofJson? := by
  intro limits j h
  obtain ⟨values, hrecord, hvalues⟩ := h.record? (by simp) (List.Subset.refl _)
  obtain ⟨fields, rfl⟩ := h.exists_obj
  obtain _ | ⟨hterms, _ | ⟨hsides, _ | ⟨hdice, _ | _⟩⟩⟩ := hvalues
  cases hterms.eq_of_isScalar rfl
  cases hsides.eq_of_isScalar rfl
  cases hdice.eq_of_isScalar rfl
  refine ofJson?_eq_some_iff.mpr ⟨_, _, _, _, _, _, Json.partialRecord?_of_record? hrecord,
    bound?_int ?_, bound?_int ?_, bound?_int ?_, limits.setAll_bounds⟩
  · exact limits.maxTerms_le.trans_lt (by decide)
  · exact limits.maxSides_le.trans_lt (by decide)
  · exact limits.maxDice_le.trans_lt (by decide)

end Limits

/-- Values of a type are stored so that they come back, as JSON values and as texts. -/
structure StoresFaithfully {α : Type} (toJson : α → Json) (ofJson? : Json → Option α) : Prop where
  value (x : α) : ofJson? (toJson x) = some x
  text (x : α) : (Json.read? (toJson x).write).bind ofJson? = some x
  distinct (x y : α) : (toJson x).write = (toJson y).write → x = y
  rearranged (x : α) (j : Json) : (toJson x).Rearranges j → ofJson? j = some x
  rearrangedText (x : α) (j : Json) :
    (toJson x).Rearranges j → j.IsWellFormed → (Json.read? j.write).bind ofJson? = some x
  /-- What is read from any value at all is stored so that it is read once more. -/
  again (x : α) (j : Json) : ofJson? j = some x →
    ofJson? (toJson x) = some x ∧ (Json.read? (toJson x).write).bind ofJson? = some x

/-- What is restored from every rearrangement is stored faithfully. -/
theorem Json.Restores.storesFaithfully {α : Type} {toJson : α → Json} {ofJson? : Json → Option α}
    (h : Restores toJson ofJson?) (hform : ∀ x, (toJson x).IsWellFormed) :
    StoresFaithfully toJson ofJson? := by
  have hvalue : ∀ x, ofJson? (toJson x) = some x := fun x => h x _ (.refl _)
  have htext : ∀ x, (Json.read? (toJson x).write).bind ofJson? = some x := by
    intro x
    rw [Json.read?_write (hform x), Option.bind_some, hvalue]
  constructor
  case value => exact hvalue
  case text => exact htext
  case distinct =>
    intro x y hxy
    have hx := htext x
    rw [hxy, htext y] at hx
    exact (Option.some.inj hx).symm
  case rearranged => exact h
  case rearrangedText =>
    intro x j hj hwellFormed
    rw [Json.read?_write hwellFormed, Option.bind_some, h x j hj]
  case again => exact fun x _ _ => ⟨hvalue x, htext x⟩

theorem Term.isWellFormed_toJson (term : Term) : term.toJson.IsWellFormed := by
  cases term <;> simp [toJson, Sign.toJson, Json.ofUInt32, Json.ofUInt64, Json.IsWellFormed,
    Json.FieldsWellFormed]

theorem TermRoll.isWellFormed_toJson (roll : TermRoll) : roll.toJson.IsWellFormed := by
  have hface : ∀ face, (Json.ofUInt32 face).IsWellFormed := fun _ => trivial
  have hrolls := Json.itemsWellFormed_map hface roll.rolls
  simp [toJson, Json.ofInt64, Json.IsWellFormed, Json.FieldsWellFormed, hrolls]

theorem RollSet.isWellFormed_toJson (set : RollSet) : set.toJson.IsWellFormed := by
  have hterms := Json.itemsWellFormed_map TermRoll.isWellFormed_toJson set.terms
  simp [toJson, Json.ofInt64, Json.IsWellFormed, Json.FieldsWellFormed, hterms]

theorem Evaluation.isWellFormed_toJson (e : Evaluation) : e.toJson.IsWellFormed := by
  have hsets := Json.itemsWellFormed_map RollSet.isWellFormed_toJson e.rollSets
  simp [toJson, Mode.toJson, Json.ofInt64, Json.ofUInt64, Json.IsWellFormed,
    Json.FieldsWellFormed, hsets]

theorem Limits.isWellFormed_toJson (limits : Limits) : limits.toJson.IsWellFormed := by
  simp [toJson, Json.IsWellFormed, Json.FieldsWellFormed]

/-- Nothing that is stored is lost, whatever it holds. -/
theorem stored_faithfully :
    StoresFaithfully Sign.toJson Sign.ofJson? ∧
      StoresFaithfully Mode.toJson Mode.ofJson? ∧
      StoresFaithfully Rejection.Kind.toJson Rejection.Kind.ofJson? ∧
      StoresFaithfully Term.toJson Term.ofJson? ∧
      StoresFaithfully TermRoll.toJson TermRoll.ofJson? ∧
      StoresFaithfully RollSet.toJson RollSet.ofJson? ∧
      StoresFaithfully Evaluation.toJson Evaluation.ofJson? ∧
      StoresFaithfully Limits.toJson Limits.ofJson? :=
  ⟨Sign.restores.storesFaithfully fun _ => trivial,
    Mode.restores.storesFaithfully fun _ => trivial,
    Rejection.Kind.restores.storesFaithfully fun _ => trivial,
    Term.restores.storesFaithfully Term.isWellFormed_toJson,
    TermRoll.restores.storesFaithfully TermRoll.isWellFormed_toJson,
    RollSet.restores.storesFaithfully RollSet.isWellFormed_toJson,
    Evaluation.restores.storesFaithfully Evaluation.isWellFormed_toJson,
    Limits.restores.storesFaithfully Limits.isWellFormed_toJson⟩

/-- A constant whose tag has moved to its end, behind a field of another name. -/
theorem stored_faithfully_tag_last :
    Term.ofJson? (.obj [("sign", .str "plus"), ("value", .int 7), ("raw", .str "7"),
      ("note", .null), ("kind", .str "const")]) = some (.constant .plus 7 "7") := by
  obtain ⟨-, -, -, hterm, -⟩ := stored_faithfully
  have hunknown : ∀ field ∈ [("note", Json.null)],
      field.1 ∉ ["kind", "sign", "value", "raw"] := by simp
  exact hterm.rearranged (.constant .plus 7 "7") _
    (.obj (.refl _) hunknown (List.perm_append_singleton _ [_, _, _, _]))

end FairDice
