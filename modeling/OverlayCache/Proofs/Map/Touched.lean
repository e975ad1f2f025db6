import OverlayCache.Proofs.Absorb

/-
  What operations and deltas leave under a single key.

  An operation touches the key that it puts or removes, and a
  clear touches every key.  Whatever was under a key before,
  the last operation that touches it says what is there in
  the end, and a key that no operation touches keeps what it
  had.

  Key definitions include:
    * `MapOp.touches`
    * `MapOp.left?`
    * `MapDelta.touches`

  The main statements are:
    * `MapOp.getElem?_act`
    * `TrackedMap.get?_replayDelta`
    * `TrackedMap.get?_foldDeltas`
-/

------------------------------------------------------------
-- Last Writers
------------------------------------------------------------

namespace OverlayCache

/-
  Among steps that either overwrite what is viewed or leave it
  alone, the last one that overwrites it decides.
-/
theorem view_foldl_of_overwrites
    {σ α β : Type}
    {step : σ → α → σ}
    {writes : α → Bool}
    {left : α → β}
    (view : σ → β)
    (hStep :
      ∀ (s : σ) (a : α),
        view (step s a) =
          if writes a then left a else view s)
    (s : σ)
    (as : List α) :
    view (as.foldl step s) =
      ((as.reverse.find? writes).map left).getD (view s) := by
  induction as generalizing s with
  | nil => rfl
  | cons a as ih =>
      rw [List.foldl_cons, ih, hStep, List.reverse_cons,
        List.find?_append]
      -- The first write counts only if no later one does.
      cases hLater : as.reverse.find? writes with
      | some b => rfl
      | none => by_cases hWrites : writes a <;> simp [hWrites]

end OverlayCache

------------------------------------------------------------
-- Single Operations
------------------------------------------------------------

namespace OverlayCache

namespace MapOp

variable {κ ν : Type} [Ord κ]

/- Whether an operation decides what is under a key. -/
def touches (k : κ) : MapOp κ ν → Bool
| .put key _ => compare key k == .eq
| .remove key => compare key k == .eq
| .clear => true

/- What an operation leaves under the keys it touches. -/
def left? : MapOp κ ν → Option ν
| .put _ value => some value
| .remove _ => none
| .clear => none

/- An operation decides about the keys it touches only. -/
theorem getElem?_act
    [Std.TransOrd κ]
    (m : Std.ExtTreeMap κ ν)
    (op : MapOp κ ν)
    (k : κ) :
    (op.act m)[k]? =
      if op.touches k then op.left? else m[k]? := by
  cases op with
  | put key value =>
      simp [act, touches, left?, Std.ExtTreeMap.getElem?_insert]
  | remove key =>
      simp [act, touches, left?, Std.ExtTreeMap.getElem?_erase]
  | clear => simp [act, touches, left?]

end MapOp

end OverlayCache

------------------------------------------------------------
-- Deltas
------------------------------------------------------------

namespace OverlayCache

variable {κ ν : Type} [Ord κ]

/- Whether some operation of a delta touches a key. -/
def MapDelta.touches (k : κ) (d : MapDelta κ ν) : Bool :=
  d.ops.any (fun op => op.touches k)

namespace TrackedMap

variable [Std.TransOrd κ]

/- The last operation that touches a key decides. -/
theorem get?_replay_ops
    (m : TrackedMap κ ν)
    (ops : List (MapOp κ ν))
    (k : κ) :
    (ops.foldl replay m).get? k =
      ((ops.reverse.find? (fun op => op.touches k)).map
        MapOp.left?).getD (m.get? k) := by
  have hStep :
      ∀ (n : TrackedMap κ ν) (op : MapOp κ ν),
        (n.replay op).get? k =
          if op.touches k then op.left? else n.get? k :=
    fun n op => op.getElem?_act n.entries k
  exact view_foldl_of_overwrites (fun n => n.get? k) hStep m ops

/-
  A delta decides about the keys it touches, in the same way
  for every map, and leaves the other keys alone.
-/
theorem get?_replayDelta
    (d : MapDelta κ ν)
    (m : TrackedMap κ ν)
    (k : κ) :
    (replayDelta d m).get? k =
      if d.touches k then
        (replayDelta d empty).get? k
      else
        m.get? k := by
  simp only [replayDelta, get?_replay_ops]
  cases hLast :
      d.ops.reverse.find? (fun op => op.touches k) with
  | some op =>
      have hTouched : d.touches k = true := by
        have hMem := List.mem_of_find?_eq_some hLast
        have hTouches := List.find?_some hLast
        simp only [MapDelta.touches, List.any_eq_true]
        exact ⟨op, List.mem_reverse.mp hMem, hTouches⟩
      simp [hTouched]
  | none =>
      have hUntouched : d.touches k = false := by
        simp only [List.find?_eq_none, List.mem_reverse] at hLast
        simpa [MapDelta.touches] using hLast
      simp [hUntouched]

/- Deltas that are folded in do the same, all together. -/
theorem get?_foldDeltas
    (ds : List (MapDelta κ ν))
    (m : TrackedMap κ ν)
    (k : κ) :
    (m.foldDeltas ds).get? k =
      if ds.any (fun d => d.touches k) then
        (empty.foldDeltas ds).get? k
      else
        m.get? k := by
  induction ds generalizing m with
  | nil => rfl
  | cons d ds ih =>
      have hFold :
          ∀ n : TrackedMap κ ν,
            n.foldDeltas (d :: ds) =
              (replayDelta d n).foldDeltas ds := fun _ => rfl
      rw [hFold, hFold, ih, ih (replayDelta d empty),
        get?_replayDelta d m]
      cases hLater : ds.any (fun d => d.touches k) with
      | true => simp [hLater]
      | false => simp [hLater]

end TrackedMap

end OverlayCache
