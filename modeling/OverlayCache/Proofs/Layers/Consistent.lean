import OverlayCache.Counter
import OverlayCache.Proofs.Layers.Moves

/-
  What the parts of a layer have to do with each other.

  Whatever happened to an entry, the working copy of each
  layer holds the pending deltas and nothing else, and a layer
  without the changed flag has neither deltas nor a snapshot.
  A rollback relies on that, as it passes by the layers that
  do not have the flag.

  No snapshot is taken while the key is being created, and
  none is taken later in the same transaction.

  Key definitions include:
    * `Layer.Coherent`
    * `Entry.Bare`
    * `Entry.isChangedAt`
    * `Entry.staysChangedAt`

  The main statements are:
    * `Layer.Coherent.stepped`
    * `Entry.coherent_moves`
    * `Entry.layers_stay_consistent`
-/

------------------------------------------------------------
-- Coherent Layers
------------------------------------------------------------

namespace OverlayCache

/- Deltas that are merged one after another. -/
theorem Delta.mergeAll_append
    {δ ω : Type} [Delta δ ω]
    (ds es : List δ)
    (work : ω) :
    mergeAll (ds ++ es) work = mergeAll es (mergeAll ds work) :=
  List.foldl_append

namespace Layer

variable {K V δ ω : Type} [Delta δ ω]

/-
  The working copy holds what is pending, and a layer that no
  transaction wrote to holds nothing back.
-/
structure Coherent (l : Layer K V δ ω) : Prop where
  work : l.work = Delta.mergeAll l.pending (Delta.blank δ)
  pending : l.flags.changed = false → l.pending = []
  snapshot : l.flags.changed = false → l.snapshot = none

theorem coherent_fresh
    (key : K)
    (value : Option V)
    (config : Config) :
    (fresh key value config : Layer K V δ ω).Coherent :=
  ⟨rfl, fun _ => rfl, fun _ => rfl⟩

variable {l m : Layer K V δ ω}
variable {created : Bool}

/- Every step of a layer leaves it coherent. -/
theorem Coherent.stepped
    (h : l.Coherent)
    (hStep : l.Stepped created m) :
    m.Coherent := by
  cases hStep with
  | kept value config hChanged =>
      constructor
      · exact h.work
      · exact fun hDown => h.pending (hChanged.symm.trans hDown)
      · exact fun hDown => h.snapshot (hChanged.symm.trans hDown)
  | started =>
      constructor
      · simp [h.work]
      · intro hDown
        simp at hDown
      · intro hDown
        simp at hDown
  | appended d =>
      constructor
      · rw [work_append, pending_append, Delta.mergeAll_append,
          ← h.work]
        rfl
      · intro hDown
        simp at hDown
      · intro hDown
        simp at hDown
  | ended value => exact ⟨rfl, fun _ => rfl, fun _ => rfl⟩

/-
  A snapshot is taken only at the start of a transaction, and
  only if the key is not being created.
-/
omit [Delta δ ω] in
theorem snapshot_start_eq_none
    (hNone : l.snapshot = none)
    (hOpen : l.flags.changed = true ∨ created = true) :
    (l.start created).snapshot = none := by
  unfold start
  by_cases hChanged : l.flags.changed = true
  · rw [if_pos hChanged]
    exact hNone
  · rw [if_neg hChanged]
    rcases hOpen with hUp | hCreated
    · exact absurd hUp hChanged
    · simp [hCreated, hNone]

/- No step of a layer takes one otherwise. -/
theorem Stepped.snapshot_eq_none
    (hStep : l.Stepped created m)
    (hNone : l.snapshot = none)
    (hOpen : l.flags.changed = true ∨ created = true) :
    m.snapshot = none := by
  cases hStep with
  | kept value config hChanged => exact hNone
  | started => exact snapshot_start_eq_none hNone hOpen
  | appended d => exact snapshot_start_eq_none hNone hOpen
  | ended value => rfl

end Layer

end OverlayCache

------------------------------------------------------------
-- Coherent Entries
------------------------------------------------------------

namespace OverlayCache

namespace Entry

variable {γ K V δ ω σ : Type}

/- What a history begins with: no layer was written to. -/
inductive Bare [Delta δ ω] : Entry K V δ ω → Prop
| plain (p : Plain K V) :
    Bare (.plain p)
| alone (key : K) (value : Option V) (config : Config) :
    Bare (.alone (.fresh key value config))

/-
  Whether the current transaction wrote to a level, counted
  from the innermost layer up.
-/
def isChangedAt (e : Entry K V δ ω) (i : Nat) : Bool :=
  e.layers[i]?.any (fun l => l.flags.changed)

variable [Repository γ K V]
variable [Delta δ ω] [Holding V σ δ]

/- Whether a level is changed before and after every move. -/
def staysChangedAt
    (e : Entry K V δ ω)
    (i : Nat) : List (Move γ K V δ σ) → Bool
| [] => e.isChangedAt i
| m :: ms => e.isChangedAt i && (e.move m).staysChangedAt i ms

/- Every layer is coherent after any history. -/
theorem coherent_moves
    {e : Entry K V δ ω}
    (hCoherent : ∀ l ∈ e.layers, l.Coherent)
    (ms : List (Move γ K V δ σ)) :
    ∀ l ∈ (e.moves ms).layers, l.Coherent := by
  induction ms generalizing e with
  | nil => exact hCoherent
  | cons m ms ih =>
      rw [moves_cons]
      apply ih
      -- Each layer keeps it by itself, and a fresh one has it.
      intro l' hMem
      rcases List.getElem?_of_mem hMem with ⟨i, hLayer⟩
      rcases layers_move hLayer with
        ⟨l, hBefore, hStep⟩ | ⟨key, value, config, rfl⟩
      · exact
          (hCoherent l (List.mem_of_getElem? hBefore)).stepped
            hStep
      · exact Layer.coherent_fresh key value config

omit [Repository γ K V] [Holding V σ δ] in
theorem Bare.coherent
    {e : Entry K V δ ω}
    (h : e.Bare) :
    ∀ l ∈ e.layers, l.Coherent := by
  cases h with
  | plain p => simp [layers]
  | alone key value config =>
      simp only [layers, List.mem_singleton, forall_eq]
      exact Layer.coherent_fresh key value config

/- A level without a snapshot takes none while it is changed. -/
theorem snapshot_moves
    {e : Entry K V δ ω}
    {i : Nat}
    (hNone :
      ∀ l : Layer K V δ ω,
        e.layers[i]? = some l → l.snapshot = none)
    {ms : List (Move γ K V δ σ)}
    (hChanged : e.staysChangedAt i ms = true) :
    ∀ l : Layer K V δ ω,
      (e.moves ms).layers[i]? = some l → l.snapshot = none := by
  induction ms generalizing e with
  | nil => exact hNone
  | cons m ms ih =>
      simp only [staysChangedAt, Bool.and_eq_true] at hChanged
      rw [moves_cons]
      apply ih _ hChanged.2
      intro l' hLayer
      rcases layers_move hLayer with
        ⟨l, hBefore, hStep⟩ | ⟨key, value, config, rfl⟩
      · have hUp : l.flags.changed = true := by
          simpa [isChangedAt, hBefore] using hChanged.1
        exact
          hStep.snapshot_eq_none (hNone l hBefore)
            (Or.inl hUp)
      · rfl

/-
  After any history, the working copy of every layer is the
  fold of its pending deltas, and a layer with a pending delta
  or a snapshot is changed.

  A move may write to a level first, in a transaction on a key
  that is being created by then.  As long as the level stays
  changed, it has no snapshot.
-/
theorem layers_stay_consistent
    {start : Entry K V δ ω}
    (hBare : start.Bare) :
    (∀ ms : List (Move γ K V δ σ),
      ∀ l ∈ (start.moves ms).layers,
        l.work = Delta.mergeAll l.pending (Delta.blank δ) ∧
          (l.pending ≠ [] ∨ l.snapshot ≠ none →
            l.flags.changed = true)) ∧
      ∀ (before : List (Move γ K V δ σ))
        (first : Move γ K V δ σ)
        (after : List (Move γ K V δ σ))
        (i : Nat),
        let e := start.moves before
        e.isChangedAt i = false →
          e.is .created = true →
          (e.move first).staysChangedAt i after = true →
          ∀ l : Layer K V δ ω,
            ((e.move first).moves after).layers[i]? = some l →
              l.snapshot = none := by
  have hCoherent :
      ∀ ms : List (Move γ K V δ σ),
        ∀ l ∈ (start.moves ms).layers, l.Coherent :=
    coherent_moves hBare.coherent
  refine ⟨?_, ?_⟩
  · intro ms l hMem
    have hLayer := hCoherent ms l hMem
    refine ⟨hLayer.work, ?_⟩
    intro hHeld
    cases hChanged : l.flags.changed with
    | true => rfl
    | false =>
        rcases hHeld with hPending | hSnapshot
        · exact absurd (hLayer.pending hChanged) hPending
        · exact absurd (hLayer.snapshot hChanged) hSnapshot
  · intro before first after i e hUnchanged hCreated hStays
    apply snapshot_moves _ hStays
    intro l' hLayer
    rcases layers_move hLayer with
      ⟨l, hBefore, hStep⟩ | ⟨key, value, config, rfl⟩
    · have hDown : l.flags.changed = false := by
        simpa [isChangedAt, hBefore] using hUnchanged
      have hNone : l.snapshot = none :=
        (hCoherent before l
          (List.mem_of_getElem? hBefore)).snapshot hDown
      exact hStep.snapshot_eq_none hNone (Or.inr hCreated)
    · rfl

/-
  Two layers over a key that is being created.  The outer one
  is written to, and its refused commit prepares the inner
  one.  The marks and values that are set later make neither
  of them take a snapshot.
-/
theorem layers_of_refused_creation :
    let start : Entry Nat Counter CounterDelta Int64 :=
      .plain (.created 1 ⟨5, 0⟩)
    let closed : Container Nat Counter :=
      Container.close (.empty none)
    let cover : Move (Container Nat Counter) Nat Counter
        CounterDelta Unit :=
      .cover 1 (some ⟨5, 0⟩) {}
    let before := [cover, cover]
    let first : Move (Container Nat Counter) Nat Counter
        CounterDelta Unit :=
      .act () (.call (.append (.add 2)))
    let refused : Move (Container Nat Counter) Nat Counter
        CounterDelta Unit :=
      .act () (.commit closed (some ⟨7⟩))
    let after : List
        (Move (Container Nat Counter) Nat Counter
          CounterDelta Unit) :=
      [.act () (.call (.append (.mul 3))),
        .act () (.call (.setValue none)),
        .act () (.call (.mark .created false)),
        .act () (.call .prepare)]
    let e := (start.moves (before ++ [first, refused])).moves after
    ∃ inner outer : Layer Nat Counter CounterDelta Int64,
      e.layers = [inner, outer] ∧
        inner.flags.changed = true ∧
        inner.snapshot = none ∧
        outer.pending = [.add 2, .mul 3] ∧
        outer.work = 6 ∧
        outer.snapshot = none := by
  intro start closed cover before first refused after e
  have hBare : start.Bare := .plain _
  rcases layers_stay_consistent
      (γ := Container Nat Counter) (σ := Unit) hBare with
    ⟨hLayers, hSnapshots⟩
  have hInner := hSnapshots (before ++ [first]) refused after
    0 rfl rfl rfl _ rfl
  have hOuter := hSnapshots before first (refused :: after)
    1 rfl rfl rfl _ rfl
  have hWork :=
    (hLayers (before ++ [first, refused] ++ after) _
      (List.mem_of_getElem? (i := 1) rfl)).1
  exact ⟨_, _, rfl, rfl, hInner, rfl, hWork, hOuter⟩

end Entry

end OverlayCache
