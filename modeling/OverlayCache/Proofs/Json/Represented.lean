import Mathlib.Data.List.Forall2
import OverlayCache.Proofs.Json.Deltas

/-
  The values that deltas are read from.

  A value represents a delta by a grammar of three levels: the
  record of the operations, the operations, and the records of
  their details.  A record is an array of its fields or an
  object that has each of them once, in any order and among
  any other members.  A delta is read from the values that
  represent it, and nothing is read from any other value.

  Key definitions include:
    * `Json.Once`
    * `Json.Record`
    * `ExactJsonScalar`
    * `MapOp.RepresentedBy`
    * `MapDelta.RepresentedBy`

  The main statements are:
    * `Json.body?_eq_some_iff`
    * `MapOp.ofJson?_eq_some_iff`
    * `MapDelta.reads_what_represents`
-/

------------------------------------------------------------
-- Records
------------------------------------------------------------

namespace OverlayCache

namespace Json

/- One member has the name, and it has the value. -/
def Once
    (name : String)
    (value : Json)
    (ms : Members) : Prop :=
  ∃ before after : Members,
    ms = before ++ (glyphs name, value) :: after ∧
      ∀ m ∈ before ++ after, m.1 ≠ glyphs name

/-
  A value is a record of named fields.  An array has their
  values in order and nothing else.  An object may have them
  in any order among other members, but all of its names are
  texts.
-/
inductive Record (fs : List (String × Json)) : Json → Prop
| items : Record fs (.arr (fs.map Prod.snd))
| members {ms : Members}
    (hTexts : ∀ m ∈ ms, ∃ s : String, m.1 = glyphs s)
    (hOnce : ∀ f ∈ fs, Once f.1 f.2 ms) :
    Record fs (.obj ms)

/- Reading all items is reading them one by one. -/
theorem mapM_eq_some_iff
    {α β : Type}
    {f : α → Option β}
    {xs : List α}
    {ys : List β} :
    xs.mapM f = some ys ↔
      List.Forall₂ (fun x y => f x = some y) xs ys := by
  induction xs generalizing ys with
  | nil => cases ys <;> simp
  | cons x xs ih =>
      have hCons :
          (x :: xs).mapM f = some ys ↔
            ∃ y zs, f x = some y ∧
              xs.mapM f = some zs ∧ y :: zs = ys := by
        simp [List.mapM_cons, Option.bind_eq_some_iff]
      rw [hCons, List.forall₂_cons_left_iff]
      simp only [ih, @eq_comm _ _ ys]

theorem text?_eq_some_iff
    {gs : List Glyph}
    {s : String} :
    text? gs = some s ↔ gs = glyphs s := by
  constructor
  · intro hText
    rcases Option.map_eq_some_iff.mp hText with
      ⟨cs, hChars, rfl⟩
    have hEach :
        List.Forall₂ (fun g c => g = .char c) gs cs := by
      refine (mapM_eq_some_iff.mp hChars).imp ?_
      intro g c hChar
      cases g with
      | char c' =>
          exact congrArg Glyph.char (Option.some.inj hChar)
      | surrogate unit => cases hChar
    have hEq := List.forall₂_map_right_iff.mpr hEach
    rw [List.forall₂_eq_eq_eq] at hEq
    rw [hEq, glyphs, String.toList_ofList]
  · rintro rfl
    exact text?_glyphs s

theorem field?_eq_some_iff
    {ms : Members}
    {name : String}
    {value : Json} :
    field? ms name = some value ↔ Once name value ms := by
  have hOne :
      field? ms name = some value ↔
        fields name ms = [value] := by
    unfold field?
    split
    · next v hFields => simp [hFields]
    · next hFields =>
        constructor
        · intro hNone
          cases hNone
        · intro hEq
          exact absurd hEq (hFields value)
  rw [hOne]
  constructor
  · intro hFields
    rcases List.map_eq_cons_iff.mp hFields with
      ⟨m, rest, hFilter, hValue, hRest⟩
    rw [List.map_eq_nil_iff.mp hRest] at hFilter
    rcases List.filter_eq_cons_iff.mp hFilter with
      ⟨before, after, hSplit, hBefore, hName, hAfter⟩
    have hMember : m = (glyphs name, value) :=
      Prod.ext (of_decide_eq_true hName) hValue
    refine ⟨before, after, hMember ▸ hSplit, ?_⟩
    intro m' hMem
    rcases List.mem_append.mp hMem with hMem | hMem
    · simpa using hBefore m' hMem
    · simpa using List.filter_eq_nil_iff.mp hAfter m' hMem
  · rintro ⟨before, after, rfl, hOther⟩
    have hNone (part : Members)
        (hPart : ∀ m ∈ part, m ∈ before ++ after) :
        part.filter (fun m => m.1 = glyphs name) = [] := by
      rw [List.filter_eq_nil_iff]
      intro m hMem
      simpa using hOther m (hPart m hMem)
    simp [fields, hNone before (by simp +contextual),
      hNone after (by simp +contextual)]

/-
  A body is taken from the records of its fields, and from
  nothing else.
-/
theorem body?_eq_some_iff
    {fs : List (String × Json)}
    {j : Json} :
    j.body? (fs.map Prod.fst) = some (fs.map Prod.snd) ↔
      Record fs j := by
  have hFields (ms : Members) :
      (fs.map Prod.fst).mapM (field? ms) =
          some (fs.map Prod.snd) ↔
        ∀ f ∈ fs, Once f.1 f.2 ms := by
    rw [mapM_eq_some_iff, List.forall₂_map_left_iff,
      List.forall₂_map_right_iff, List.forall₂_same]
    simp only [field?_eq_some_iff]
  have hNames (ms : Members) :
      ms.all (fun m => (text? m.1).isSome) = true ↔
        ∀ m ∈ ms, ∃ s : String, m.1 = glyphs s := by
    simp only [List.all_eq_true, Option.isSome_iff_exists,
      text?_eq_some_iff]
  constructor
  · intro hBody
    cases j with
    | arr items =>
        simp only [body?] at hBody
        split at hBody
        · cases Option.some.inj hBody
          exact .items
        · cases hBody
    | obj ms =>
        simp only [body?] at hBody
        split at hBody
        · next hTexts =>
            exact .members ((hNames ms).mp hTexts)
              ((hFields ms).mp hBody)
        · cases hBody
    | _ => cases hBody
  · intro hRecord
    cases hRecord with
    | items => simp [body?]
    | members hTexts hOnce =>
        simp only [body?]
        rw [if_pos ((hNames _).mpr hTexts)]
        exact (hFields _).mpr hOnce

end Json

end OverlayCache

------------------------------------------------------------
-- Keys And Values
------------------------------------------------------------

namespace OverlayCache

/- Scalars that are read from their own form only. -/
class ExactJsonScalar (α : Type) [JsonScalar α] : Prop where
  ofJson?_eq_some_iff :
    ∀ {j : Json} {a : α},
      JsonScalar.ofJson? j = some a ↔ j = JsonScalar.toJson a

theorem ExactJsonScalar.ofJson?_toJson
    {α : Type}
    [JsonScalar α] [ExactJsonScalar α]
    (a : α) :
    JsonScalar.ofJson? (JsonScalar.toJson a) = some a :=
  ofJson?_eq_some_iff.mpr rfl

instance : ExactJsonScalar String where
  ofJson?_eq_some_iff {j s} := by
    cases j with
    | str gs =>
        simp [JsonScalar.ofJson?, JsonScalar.toJson,
          Json.ofString, Json.text?_eq_some_iff]
    | _ =>
        simp [JsonScalar.ofJson?, JsonScalar.toJson,
          Json.ofString]

/- Numbers that do not fit into 64 bits are not wrapped. -/
instance : ExactJsonScalar Int64 where
  ofJson?_eq_some_iff {j n} := by
    constructor
    · intro hRead
      cases j with
      | int i =>
          simp only [JsonScalar.ofJson?] at hRead
          split at hRead
          · next hFits =>
              cases Option.some.inj hRead
              have hInt :=
                Int64.toInt_ofInt_of_le hFits.1
                  (Int.lt_add_one_of_le hFits.2)
              exact congrArg Json.int hInt.symm
          · cases hRead
      | _ => cases hRead
    · rintro rfl
      exact LawfulJsonScalar.ofJson?_toJson n

end OverlayCache

------------------------------------------------------------
-- Operations
------------------------------------------------------------

namespace OverlayCache

variable {κ ν : Type} [JsonScalar κ] [JsonScalar ν]

namespace MapOp

/-
  The values that stand for an operation.  A text stands as a
  string in them, and an integer as its number.
-/
inductive RepresentedBy : MapOp κ ν → Json → Prop
| clear : RepresentedBy .clear (.ofString "Clear")
| clearNull :
    RepresentedBy .clear (.ofMembers [("Clear", .null)])
| put {key : κ} {value : ν} {j : Json}
    (hRecord :
      Json.Record
        [("key", JsonScalar.toJson key),
          ("value", JsonScalar.toJson value)] j) :
    RepresentedBy (.put key value) (.ofMembers [("Put", j)])
| remove {key : κ} {j : Json}
    (hRecord :
      Json.Record [("key", JsonScalar.toJson key)] j) :
    RepresentedBy (.remove key) (.ofMembers [("Remove", j)])

theorem ofJson?_put (j : Json) :
    ofJson? (.ofMembers [("Put", j)]) =
      (putOfJson? j : Option (MapOp κ ν)) := by
  simp [ofJson?, Json.ofMembers]

theorem ofJson?_remove (j : Json) :
    ofJson? (.ofMembers [("Remove", j)]) =
      (removeOfJson? j : Option (MapOp κ ν)) := by
  simp [ofJson?, Json.ofMembers, Json.glyphs_inj]

variable [ExactJsonScalar κ]

omit [JsonScalar ν] in
theorem removeOfJson?_eq_some_iff
    {j : Json}
    {op : MapOp κ ν} :
    removeOfJson? j = some op ↔
      ∃ key : κ,
        op = .remove key ∧
          Json.Record [("key", JsonScalar.toJson key)] j := by
  constructor
  · intro hRead
    rcases Option.bind_eq_some_iff.mp hRead with
      ⟨fs, hBody, hFields⟩
    split at hFields
    · next key =>
        simp only [Option.bind_eq_bind,
          Option.bind_eq_some_iff, Option.some.injEq,
          ExactJsonScalar.ofJson?_eq_some_iff] at hFields
        rcases hFields with ⟨k, rfl, rfl⟩
        exact ⟨k, rfl, Json.body?_eq_some_iff.mp hBody⟩
    · cases hFields
  · rintro ⟨key, rfl, hRecord⟩
    have hBody := Json.body?_eq_some_iff.mpr hRecord
    simp only [List.map_cons, List.map_nil] at hBody
    simp [removeOfJson?, hBody,
      ExactJsonScalar.ofJson?_toJson]

variable [ExactJsonScalar ν]

theorem putOfJson?_eq_some_iff
    {j : Json}
    {op : MapOp κ ν} :
    putOfJson? j = some op ↔
      ∃ (key : κ) (value : ν),
        op = .put key value ∧
          Json.Record
            [("key", JsonScalar.toJson key),
              ("value", JsonScalar.toJson value)] j := by
  constructor
  · intro hRead
    rcases Option.bind_eq_some_iff.mp hRead with
      ⟨fs, hBody, hFields⟩
    split at hFields
    · next key value =>
        simp only [Option.bind_eq_bind,
          Option.bind_eq_some_iff, Option.some.injEq,
          ExactJsonScalar.ofJson?_eq_some_iff] at hFields
        rcases hFields with ⟨k, rfl, v, rfl, rfl⟩
        exact ⟨k, v, rfl, Json.body?_eq_some_iff.mp hBody⟩
    · cases hFields
  · rintro ⟨key, value, rfl, hRecord⟩
    have hBody := Json.body?_eq_some_iff.mpr hRecord
    simp only [List.map_cons, List.map_nil] at hBody
    simp [putOfJson?, hBody, ExactJsonScalar.ofJson?_toJson]

/- An operation is read from what represents it. -/
theorem ofJson?_eq_some_iff
    {j : Json}
    {op : MapOp κ ν} :
    ofJson? j = some op ↔ op.RepresentedBy j := by
  constructor
  · intro hRead
    unfold ofJson? at hRead
    split at hRead
    · split at hRead
      · next hName =>
          cases Option.some.inj hRead
          rw [hName]
          exact .clear
      · cases hRead
    · split at hRead
      · next hName =>
          rcases putOfJson?_eq_some_iff.mp hRead with
            ⟨key, value, rfl, hRecord⟩
          rw [hName]
          exact .put hRecord
      · split at hRead
        · next hName =>
            rcases removeOfJson?_eq_some_iff.mp hRead with
              ⟨key, rfl, hRecord⟩
            rw [hName]
            exact .remove hRecord
        · split at hRead
          · next hName =>
              split at hRead
              · cases Option.some.inj hRead
                rw [hName]
                exact .clearNull
              · cases hRead
          · cases hRead
    · cases hRead
  · intro hRepresented
    cases hRepresented with
    | clear => rfl
    | clearNull => rfl
    | put hRecord =>
        rw [ofJson?_put]
        exact
          putOfJson?_eq_some_iff.mpr ⟨_, _, rfl, hRecord⟩
    | remove hRecord =>
        rw [ofJson?_remove]
        exact
          removeOfJson?_eq_some_iff.mpr ⟨_, rfl, hRecord⟩

end MapOp

end OverlayCache

------------------------------------------------------------
-- Deltas
------------------------------------------------------------

namespace OverlayCache

variable {κ ν : Type} [JsonScalar κ] [JsonScalar ν]

namespace MapDelta

/-
  The values that stand for a delta, which are the records of
  its operations in their order.
-/
def RepresentedBy (d : MapDelta κ ν) (j : Json) : Prop :=
  ∃ items : List Json,
    Json.Record [("operations", .arr items)] j ∧
      List.Forall₂ MapOp.RepresentedBy d.ops items

variable [ExactJsonScalar κ] [ExactJsonScalar ν]

/- A delta is read from what represents it. -/
theorem ofJson?_eq_some_iff
    {j : Json}
    {d : MapDelta κ ν} :
    ofJson? j = some d ↔ d.RepresentedBy j := by
  have hOps (items : List Json) (ops : List (MapOp κ ν)) :
      items.mapM MapOp.ofJson? = some ops ↔
        List.Forall₂ MapOp.RepresentedBy ops items := by
    rw [Json.mapM_eq_some_iff]
    simp only [MapOp.ofJson?_eq_some_iff]
    exact ⟨List.Forall₂.flip, List.Forall₂.flip⟩
  constructor
  · intro hRead
    rcases Option.bind_eq_some_iff.mp hRead with
      ⟨fs, hBody, hItems⟩
    split at hItems
    · next items =>
        rcases Option.bind_eq_some_iff.mp hItems with
          ⟨ops, hEach, hEq⟩
        cases Option.some.inj hEq
        exact
          ⟨items, Json.body?_eq_some_iff.mp hBody,
            (hOps items ops).mp hEach⟩
    · cases hItems
  · rintro ⟨items, hRecord, hItems⟩
    have hBody := Json.body?_eq_some_iff.mpr hRecord
    have hRead := (hOps items d.ops).mpr hItems
    simp only [List.map_cons, List.map_nil] at hBody
    simp [ofJson?, hBody, hRead]

theorem ofJson?_eq_none_iff
    {j : Json} :
    (ofJson? j : Option (MapDelta κ ν)) = none ↔
      ∀ d : MapDelta κ ν, ¬ d.RepresentedBy j := by
  simp only [Option.eq_none_iff_forall_ne_some, ne_eq,
    ofJson?_eq_some_iff]

/-
  A delta under texts or integers as keys is read from just
  the values that represent it, and all other values are
  refused.
-/
theorem reads_what_represents :
    (∀ j : Json,
      (∀ d : MapDelta String Int64,
        ofJson? j = some d ↔ d.RepresentedBy j) ∧
        ((ofJson? j : Option (MapDelta String Int64)) = none ↔
          ∀ d : MapDelta String Int64,
            ¬ d.RepresentedBy j)) ∧
    (∀ j : Json,
      (∀ d : MapDelta Int64 Int64,
        ofJson? j = some d ↔ d.RepresentedBy j) ∧
        ((ofJson? j : Option (MapDelta Int64 Int64)) = none ↔
          ∀ d : MapDelta Int64 Int64,
            ¬ d.RepresentedBy j)) :=
  ⟨fun _ =>
      ⟨fun _ => ofJson?_eq_some_iff, ofJson?_eq_none_iff⟩,
    fun _ =>
      ⟨fun _ => ofJson?_eq_some_iff, ofJson?_eq_none_iff⟩⟩

/-
  Array and object forms mix, fields come in any order, and
  other members are skipped.
-/
example :
    ofJson?
        (.ofMembers
          [("note", .real "1.5".toList),
            ("operations",
              .arr
                [.ofMembers [("Clear", .null)],
                  .ofMembers
                    [("Put",
                      .ofMembers
                        [("value", .int 2), ("other", .null),
                          ("key", .ofString "a")])],
                  .ofMembers
                    [("Remove", .arr [.ofString "b"])]])]) =
      some
        (⟨[.clear, .put "a" 2, .remove "b"]⟩ :
          MapDelta String Int64) := by
  decide +kernel

end MapDelta

end OverlayCache
