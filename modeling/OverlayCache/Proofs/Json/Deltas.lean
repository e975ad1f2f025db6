import OverlayCache.Json.DeltaForm
import OverlayCache.Proofs.Json.Values

/-
  Written deltas are read back.

  A record that is written with its fields under different
  names is taken apart into these fields again.  The form of a
  delta is built from such records, from texts and from
  integers, so that its text determines it.

  Key definitions include:
    * `LawfulJsonScalar`

  The main statements are:
    * `Json.body?_ofMembers`
    * `MapOp.ofJson?_toJson`
    * `MapDelta.ofJson?_toJson`
    * `MapDelta.written_text_reads_back`
-/

------------------------------------------------------------
-- Texts And Records
------------------------------------------------------------

namespace OverlayCache

namespace Json

/- Reading each item gives back what it was made of. -/
theorem mapM_map_eq_some
    {α β γ : Type}
    {f : α → β}
    {g : β → Option γ}
    {h : α → γ}
    {xs : List α}
    (hEach : ∀ x ∈ xs, g (f x) = some (h x)) :
    (xs.map f).mapM g = some (xs.map h) := by
  induction xs with
  | nil => rfl
  | cons x xs ih =>
      have hFirst := hEach x List.mem_cons_self
      have hRest :=
        ih (fun y hMem => hEach y (List.mem_cons_of_mem x hMem))
      simp [List.mapM_cons, hFirst, hRest]

theorem text?_glyphs (s : String) :
    text? (glyphs s) = some s := by
  have hChars :
      (s.toList.map Glyph.char).mapM Glyph.char? =
        some (s.toList.map id) :=
    mapM_map_eq_some (fun _ _ => rfl)
  simp [text?, glyphs, hChars]

theorem glyphs_inj
    {s t : String} :
    glyphs s = glyphs t ↔ s = t := by
  constructor
  · intro hEq
    have hText := text?_glyphs s
    rw [hEq, text?_glyphs t] at hText
    exact (Option.some.inj hText).symm
  · rintro rfl
    rfl

variable {ms : List (String × Json)}

/- A name that no field has finds nothing. -/
theorem fields_of_not_mem
    {name : String}
    (hNew : name ∉ ms.map Prod.fst) :
    fields name (ms.map (fun m => (glyphs m.1, m.2))) =
      [] := by
  simp only [fields, List.map_eq_nil_iff,
    List.filter_eq_nil_iff, List.mem_map, decide_eq_true_eq]
  rintro _ ⟨m, hMem, rfl⟩ hName
  apply hNew
  rw [← glyphs_inj.mp hName]
  exact List.mem_map_of_mem hMem

/- Under different names, each name finds its one field. -/
theorem field?_of_mem
    (hNodup : (ms.map Prod.fst).Nodup)
    {m : String × Json}
    (hMem : m ∈ ms) :
    field? (ms.map (fun m => (glyphs m.1, m.2))) m.1 =
      some m.2 := by
  have hOne :
      fields m.1 (ms.map (fun m => (glyphs m.1, m.2))) =
        [m.2] := by
    induction ms with
    | nil => cases hMem
    | cons m' ms ih =>
        rw [List.map_cons, List.nodup_cons] at hNodup
        rcases hNodup with ⟨hNew, hNodup⟩
        rcases List.mem_cons.mp hMem with rfl | hMem
        · have hNone := fields_of_not_mem hNew
          simpa [fields] using hNone
        · have hName : m'.1 ≠ m.1 := by
            intro hEq
            rw [hEq] at hNew
            exact hNew (List.mem_map_of_mem hMem)
          have hSkip : glyphs m'.1 ≠ glyphs m.1 :=
            fun hEq => hName (glyphs_inj.mp hEq)
          rw [← ih hNodup hMem]
          simp [fields, hSkip]
  simp [field?, hOne]

/-
  A record with different names is taken apart into its
  fields, in the order of these names.
-/
theorem body?_ofMembers
    (hNodup : (ms.map Prod.fst).Nodup) :
    (ofMembers ms).body? (ms.map Prod.fst) =
      some (ms.map Prod.snd) := by
  have hTexts :
      (ms.map (fun m => (glyphs m.1, m.2))).all
        (fun m => (text? m.1).isSome) = true := by
    simp [text?_glyphs]
  simp only [ofMembers, body?]
  rw [if_pos hTexts]
  exact mapM_map_eq_some (fun m hMem => field?_of_mem hNodup hMem)

end Json

end OverlayCache

------------------------------------------------------------
-- Texts And Integers Only
------------------------------------------------------------

namespace OverlayCache

namespace Json

theorem textual_ofString (s : String) :
    (ofString s).Textual :=
  isText_glyphs s

theorem textual_arr
    {items : List Json}
    (hItems : ∀ item ∈ items, item.Textual) :
    (arr items).Textual := by
  change TextualItems items
  induction items with
  | nil => trivial
  | cons item items ih =>
      refine ⟨hItems item List.mem_cons_self, ih ?_⟩
      intro j hMem
      exact hItems j (List.mem_cons_of_mem item hMem)

theorem textual_ofMembers
    {ms : List (String × Json)}
    (hMembers : ∀ m ∈ ms, m.2.Textual) :
    (ofMembers ms).Textual := by
  change TextualMembers (ms.map (fun m => (glyphs m.1, m.2)))
  induction ms with
  | nil => trivial
  | cons m ms ih =>
      refine ⟨isText_glyphs m.1,
        hMembers m List.mem_cons_self, ih ?_⟩
      intro m' hMem
      exact hMembers m' (List.mem_cons_of_mem m hMem)

end Json

end OverlayCache

------------------------------------------------------------
-- Keys And Values
------------------------------------------------------------

namespace OverlayCache

/-
  Scalars that are written as a text or an integer and are
  read back from it.
-/
class LawfulJsonScalar (α : Type) [JsonScalar α] : Prop where
  textual : ∀ a : α, (JsonScalar.toJson a).Textual
  ofJson?_toJson :
    ∀ a : α, JsonScalar.ofJson? (JsonScalar.toJson a) = some a

instance : LawfulJsonScalar String where
  textual s := Json.textual_ofString s
  ofJson?_toJson s := Json.text?_glyphs s

/- Every integer of 64 bits lies between the two extremes. -/
instance : LawfulJsonScalar Int64 where
  textual n := by
    change (Json.int n.toInt).Textual
    simp only [Json.Textual]
  ofJson?_toJson n := by
    have hFits := And.intro n.minValue_le_toInt n.toInt_le
    simp only [JsonScalar.toJson, JsonScalar.ofJson?]
    rw [if_pos hFits, Int64.ofInt_toInt]

end OverlayCache

------------------------------------------------------------
-- Operations And Deltas
------------------------------------------------------------

namespace OverlayCache

variable {κ ν : Type} [JsonScalar κ] [JsonScalar ν]
variable [LawfulJsonScalar κ] [LawfulJsonScalar ν]

namespace MapOp

theorem textual_toJson (op : MapOp κ ν) :
    op.toJson.Textual := by
  cases op with
  | put key value =>
      apply Json.textual_ofMembers
      simp only [List.mem_singleton]
      rintro m rfl
      apply Json.textual_ofMembers
      simp only [List.mem_cons, List.not_mem_nil, or_false]
      rintro m (rfl | rfl)
      · exact LawfulJsonScalar.textual key
      · exact LawfulJsonScalar.textual value
  | remove key =>
      apply Json.textual_ofMembers
      simp only [List.mem_singleton]
      rintro m rfl
      apply Json.textual_ofMembers
      simp only [List.mem_singleton]
      rintro m rfl
      exact LawfulJsonScalar.textual key
  | clear => exact Json.textual_ofString "Clear"

/- Each operation is read back from its form. -/
theorem ofJson?_toJson (op : MapOp κ ν) :
    ofJson? op.toJson = some op := by
  cases op with
  | put key value =>
      have hBody :
          (Json.ofMembers
              [("key", JsonScalar.toJson key),
                ("value", JsonScalar.toJson value)]).body?
              ["key", "value"] =
            some [JsonScalar.toJson key,
              JsonScalar.toJson value] :=
        Json.body?_ofMembers (by simp)
      have hPut :
          putOfJson?
              (.ofMembers
                [("key", JsonScalar.toJson key),
                  ("value", JsonScalar.toJson value)]) =
            some (put key value) := by
        simp [putOfJson?, hBody,
          LawfulJsonScalar.ofJson?_toJson]
      simpa [toJson, ofJson?, Json.ofMembers] using hPut
  | remove key =>
      have hBody :
          (Json.ofMembers
              [("key", JsonScalar.toJson key)]).body?
              ["key"] =
            some [JsonScalar.toJson key] :=
        Json.body?_ofMembers (by simp)
      have hRemove :
          removeOfJson?
              (.ofMembers [("key", JsonScalar.toJson key)]) =
            some (remove key : MapOp κ ν) := by
        simp [removeOfJson?, hBody,
          LawfulJsonScalar.ofJson?_toJson]
      have hNe :
          Json.glyphs "Remove" ≠ Json.glyphs "Put" := by
        decide
      simpa [toJson, ofJson?, Json.ofMembers, hNe]
        using hRemove
  | clear => rfl

end MapOp

namespace MapDelta

theorem textual_toJson (d : MapDelta κ ν) :
    d.toJson.Textual := by
  apply Json.textual_ofMembers
  simp only [List.mem_singleton]
  rintro m rfl
  apply Json.textual_arr
  intro j hMem
  rcases List.mem_map.mp hMem with ⟨op, -, rfl⟩
  exact op.textual_toJson

/- So is each delta, operation by operation. -/
theorem ofJson?_toJson (d : MapDelta κ ν) :
    ofJson? d.toJson = some d := by
  have hOps :
      (d.ops.map MapOp.toJson).mapM MapOp.ofJson? =
        some (d.ops.map id) :=
    Json.mapM_map_eq_some
      (fun op _ => op.ofJson?_toJson)
  have hBody :
      (Json.ofMembers
          [("operations",
            .arr (d.ops.map MapOp.toJson))]).body?
          ["operations"] =
        some [.arr (d.ops.map MapOp.toJson)] :=
    Json.body?_ofMembers (by simp)
  simp [toJson, ofJson?, hBody, hOps]

theorem read?_write (d : MapDelta κ ν) :
    read? d.write = some d := by
  rw [read?, write, Json.read?_write d.textual_toJson]
  exact d.ofJson?_toJson

/-
  Deltas under texts or integers as keys are read back from
  their texts, whatever their operations.
-/
theorem written_text_reads_back :
    (∀ d : MapDelta String Int64,
      read? d.write = some d) ∧
    (∀ d : MapDelta Int64 Int64,
      read? d.write = some d) :=
  ⟨read?_write, read?_write⟩

end MapDelta

end OverlayCache
