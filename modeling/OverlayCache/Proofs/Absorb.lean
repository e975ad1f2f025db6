import OverlayCache.Map.Tracked
import OverlayCache.Shared

/-
  What a commit does to an aggregate.

  An aggregate absorbs the deltas of one transaction: they
  are applied in order, and the aggregate is told once that
  they are durable.  A transaction without deltas leaves the
  aggregate alone.  Held values absorb deltas in the same
  way, whether the aggregate is held by itself or through a
  handle.

  Key definitions include:
    * `Aggregate.absorb`
    * `Aggregate.absorbAll`
-/

------------------------------------------------------------
-- Absorbed Deltas
------------------------------------------------------------

namespace OverlayCache

namespace Aggregate

variable {α δ : Type} [Aggregate α δ]

/- Take the deltas of one transaction in for good. -/
def absorb (ds : List δ) (a : α) : α :=
  if ds.isEmpty then
    a
  else
    settle (applyAll ds a)

theorem absorb_of_ne_nil
    {ds : List δ}
    (hNe : ds ≠ [])
    (a : α) :
    absorb ds a = settle (applyAll ds a) := by
  simp [absorb, hNe]

/- Take the deltas of several transactions in, in order. -/
def absorbAll (ts : List (List δ)) (a : α) : α :=
  ts.foldl (fun b ds => absorb ds b) a

@[simp] theorem absorbAll_nil (a : α) :
    absorbAll ([] : List (List δ)) a = a := rfl

theorem absorbAll_append
    (ts us : List (List δ))
    (a : α) :
    absorbAll (ts ++ us) a = absorbAll us (absorbAll ts a) :=
  List.foldl_append

@[simp] theorem applyAll_nil (a : α) :
    applyAll ([] : List δ) a = a := rfl

@[simp] theorem applyAll_cons
    (d : δ)
    (ds : List δ)
    (a : α) :
    applyAll (d :: ds) a = applyAll ds (apply d a) := rfl

end Aggregate

end OverlayCache

------------------------------------------------------------
-- Absorption By Held Values
------------------------------------------------------------

namespace OverlayCache

namespace Holding

variable {α δ : Type} [Aggregate α δ]

/- Applying deltas to an aggregate that is held by itself. -/
theorem applyAll_value
    (ds : List δ)
    (a : α)
    (u : Unit) :
    applyAll ds a u = (Aggregate.applyAll ds a, u) := by
  induction ds generalizing a with
  | nil => rfl
  | cons d ds ih => exact ih (Aggregate.apply d a)

/- An aggregate that is held by itself absorbs the deltas. -/
theorem replay_value
    (ds : List δ)
    (a : α)
    (u : Unit) :
    replay ds a u = (Aggregate.absorb ds a, u) := by
  unfold replay Aggregate.absorb
  by_cases hNil : ds.isEmpty
  · simp [hNil]
  · simp only [hNil, applyAll_value]
    rfl

variable [Inhabited α]

/- A handle stays the same while deltas are applied. -/
theorem applyAll_handle_fst
    (ds : List δ)
    (h : Handle α)
    (s : Heap α) :
    (applyAll ds h s).1 = h := by
  induction ds generalizing s with
  | nil => rfl
  | cons d ds ih =>
      exact ih (s.modify h (Aggregate.apply d))

theorem replay_handle_fst
    (ds : List δ)
    (h : Handle α)
    (s : Heap α) :
    (replay ds h s).1 = h := by
  unfold replay
  by_cases hNil : ds.isEmpty
  · simp [hNil]
  · simp only [hNil]
    exact applyAll_handle_fst ds h s

end Holding

end OverlayCache

------------------------------------------------------------
-- Absorption In Heaps
------------------------------------------------------------

namespace OverlayCache

namespace Heap

variable {α δ : Type}

@[simp] theorem next_alloc (s : Heap α) (a : α) :
    (s.alloc a).2.next = s.next + 1 := rfl

variable [Inhabited α] [Aggregate α δ]

/- A modified aggregate is the only one that changes. -/
theorem read_modify
    (s : Heap α)
    (h g : Handle α)
    (f : α → α) :
    (s.modify h f).read g =
      if g = h then f (s.read h) else s.read g :=
  read_write s h g (f (s.read h))

/- A new aggregate leaves those with other names alone. -/
theorem read_alloc_of_ne
    (s : Heap α)
    (a : α)
    {h : Handle α}
    (hNe : h.id ≠ s.next) :
    (s.alloc a).2.read h = s.read h := by
  have hNext : ¬ s.next = h.id := fun hEq => hNe hEq.symm
  simp [alloc, read, Std.ExtTreeMap.getD_insert, hNext]

/- Deltas are applied to the named aggregate only. -/
theorem read_applyAll
    (ds : List δ)
    (h g : Handle α)
    (s : Heap α) :
    (Holding.applyAll ds h s).2.read g =
      if g = h then
        Aggregate.applyAll ds (s.read h)
      else
        s.read g := by
  induction ds generalizing s with
  | nil =>
      by_cases hEq : g = h
      · simp [Holding.applyAll, hEq]
      · simp [Holding.applyAll, hEq]
  | cons d ds ih =>
      have hRest := ih (s.modify h (Aggregate.apply d))
      rw [read_modify, read_modify] at hRest
      change
        (Holding.applyAll ds h
          (s.modify h (Aggregate.apply d))).2.read g = _
      by_cases hEq : g = h
      · simpa [hEq] using hRest
      · simpa [hEq] using hRest

theorem next_applyAll
    (ds : List δ)
    (h : Handle α)
    (s : Heap α) :
    (Holding.applyAll ds h s).2.next = s.next := by
  induction ds generalizing s with
  | nil => rfl
  | cons d ds ih =>
      exact ih (s.modify h (Aggregate.apply d))

/- The named aggregate absorbs the deltas, and no other. -/
theorem read_replay
    (ds : List δ)
    (h g : Handle α)
    (s : Heap α) :
    (Holding.replay ds h s).2.read g =
      if g = h then
        Aggregate.absorb ds (s.read h)
      else
        s.read g := by
  unfold Holding.replay Aggregate.absorb
  by_cases hNil : ds.isEmpty
  · by_cases hEq : g = h
    · simp [hNil, hEq]
    · simp [hNil, hEq]
  · simp only [hNil, Holding.applyAll_handle_fst]
    have hSettled :=
      read_modify (Holding.applyAll ds h s).2 h g
        Aggregate.settle
    rw [read_applyAll, read_applyAll] at hSettled
    change
      ((Holding.applyAll ds h s).2.modify h
        Aggregate.settle).read g = _
    by_cases hEq : g = h
    · simpa [hEq] using hSettled
    · simpa [hEq] using hSettled

theorem next_replay
    (ds : List δ)
    (h : Handle α)
    (s : Heap α) :
    (Holding.replay ds h s).2.next = s.next := by
  unfold Holding.replay
  by_cases hNil : ds.isEmpty
  · simp [hNil]
  · simp only [hNil]
    exact next_applyAll ds h s

end Heap

end OverlayCache

------------------------------------------------------------
-- Absorption By Tracked Maps
------------------------------------------------------------

namespace OverlayCache

namespace TrackedMap

variable {κ ν : Type} [Ord κ]

/- Settling a map without recorded changes does nothing. -/
theorem settle_of_clean
    {m : TrackedMap κ ν}
    (hClean : m.changes = []) :
    m.settle = m := by
  cases m with
  | mk entries changes =>
      cases hClean
      rfl

variable [Std.TransOrd κ]

/- Replayed operations are not recorded. -/
theorem changes_replayDelta
    (d : MapDelta κ ν)
    (m : TrackedMap κ ν) :
    (replayDelta d m).changes = m.changes := by
  unfold replayDelta
  induction d.ops generalizing m with
  | nil => rfl
  | cons op ops ih => exact ih (m.replay op)

/- Folding deltas into a map leaves its change log alone. -/
theorem changes_foldDeltas
    (m : TrackedMap κ ν)
    (ds : List (MapDelta κ ν)) :
    (m.foldDeltas ds).changes = m.changes := by
  induction ds generalizing m with
  | nil => rfl
  | cons d ds ih =>
      have hRest := ih (replayDelta d m)
      exact hRest.trans (changes_replayDelta d m)

theorem foldDeltas_append
    (m : TrackedMap κ ν)
    (ds es : List (MapDelta κ ν)) :
    m.foldDeltas (ds ++ es) =
      (m.foldDeltas ds).foldDeltas es :=
  List.foldl_append

/- Applying deltas and merging them come to the same. -/
theorem applyAll_eq_foldDeltas
    (ds : List (MapDelta κ ν))
    (m : TrackedMap κ ν) :
    Aggregate.applyAll ds m = m.foldDeltas ds := rfl

/- A map without recorded changes just folds the deltas. -/
theorem absorb_of_clean
    {m : TrackedMap κ ν}
    (hClean : m.changes = [])
    (ds : List (MapDelta κ ν)) :
    Aggregate.absorb ds m = m.foldDeltas ds := by
  by_cases hNil : ds = []
  · subst hNil
    rfl
  · rw [Aggregate.absorb_of_ne_nil hNil]
    apply settle_of_clean
    rw [applyAll_eq_foldDeltas, changes_foldDeltas]
    exact hClean

/- What a delta does depends on the mappings only. -/
theorem entries_replayDelta
    {m n : TrackedMap κ ν}
    (hSame : m.entries = n.entries)
    (d : MapDelta κ ν) :
    (replayDelta d m).entries = (replayDelta d n).entries := by
  unfold replayDelta
  induction d.ops generalizing m n with
  | nil => exact hSame
  | cons op ops ih =>
      exact
        ih (m := m.replay op) (n := n.replay op)
          (congrArg (fun es => op.act es) hSame)

theorem entries_foldDeltas
    {m n : TrackedMap κ ν}
    (hSame : m.entries = n.entries)
    (ds : List (MapDelta κ ν)) :
    (m.foldDeltas ds).entries =
      (n.foldDeltas ds).entries := by
  induction ds generalizing m n with
  | nil => exact hSame
  | cons d ds ih => exact ih (entries_replayDelta hSame d)

/- Absorbed deltas are folded into the mappings. -/
theorem entries_absorb
    (ds : List (MapDelta κ ν))
    (m : TrackedMap κ ν) :
    (Aggregate.absorb ds m).entries =
      (m.foldDeltas ds).entries := by
  by_cases hNil : ds = []
  · subst hNil
    rfl
  · rw [Aggregate.absorb_of_ne_nil hNil]
    rfl

/- A map that absorbs a delta forgets its own changes. -/
theorem changes_absorb
    (ds : List (MapDelta κ ν))
    (m : TrackedMap κ ν) :
    (Aggregate.absorb ds m).changes =
      if ds.isEmpty then m.changes else [] := by
  unfold Aggregate.absorb
  split <;> rfl

/- Transactions fold one after another. -/
theorem entries_absorbAll
    (ts : List (List (MapDelta κ ν)))
    (m : TrackedMap κ ν) :
    (Aggregate.absorbAll ts m).entries =
      (m.foldDeltas ts.flatten).entries := by
  induction ts generalizing m with
  | nil => rfl
  | cons ds ts ih =>
      rw [List.flatten_cons, foldDeltas_append]
      exact
        (ih (Aggregate.absorb ds m)).trans
          (entries_foldDeltas (entries_absorb ds m) _)

/- One delta anywhere makes the map forget its changes. -/
theorem changes_absorbAll
    (ts : List (List (MapDelta κ ν)))
    (m : TrackedMap κ ν) :
    (Aggregate.absorbAll ts m).changes =
      if ts.flatten.isEmpty then m.changes else [] := by
  induction ts generalizing m with
  | nil => rfl
  | cons ds ts ih =>
      have hRest := ih (Aggregate.absorb ds m)
      rw [changes_absorb] at hRest
      change
        (Aggregate.absorbAll ts
          (Aggregate.absorb ds m)).changes = _
      rw [hRest, List.flatten_cons]
      cases ds with
      | nil => simp
      | cons d ds => simp

end TrackedMap

end OverlayCache
