import OverlayCache.Proofs.Map.Exported

/-
  Direct mutations that deltas arrive between.

  A map is mutated directly and receives deltas meanwhile, in
  any mixture of the two.  As long as they concern different
  keys, it makes no difference how they are mixed: the map
  ends as if all mutations had come first, and as if they had
  come last, and every mutation finds what it would find by
  itself.

  Key definitions include:
    * `MapOp.key?`
    * `MapOp.Apart`
    * `TrackedMap.Interleaved`

  The main statements are:
    * `MapOp.Apart.act_comm`
    * `TrackedMap.replayDelta_record_of_apart`
    * `TrackedMap.Interleaved.run_snd`
    * `TrackedMap.Interleaved.previous_run`
    * `TrackedMap.mixed_calls_commute`
-/

------------------------------------------------------------
-- Operations On Different Keys
------------------------------------------------------------

namespace OverlayCache

namespace MapOp

variable {κ ν : Type}

/- The key that an operation puts or removes. -/
def key? : MapOp κ ν → Option κ
| .put key _ => some key
| .remove key => some key
| .clear => none

/- The key that is stored under the keys it touches. -/
def storedKey? : MapOp κ ν → Option κ
| .put key _ => some key
| .remove _ => none
| .clear => none

variable [Ord κ]

/- Neither of two operations is a clear, and the keys differ. -/
def Apart (op other : MapOp κ ν) : Prop :=
  ∃ k j : κ,
    op.key? = some k ∧
      other.key? = some j ∧
      compare k j ≠ .eq

/- Only its own key is touched by an operation that has one. -/
theorem touches_of_key?
    {op : MapOp κ ν}
    {key : κ}
    (hKey : op.key? = some key)
    (k : κ) :
    op.touches k = (compare key k == .eq) := by
  cases op with
  | put other value =>
      cases hKey
      rfl
  | remove other =>
      cases hKey
      rfl
  | clear => cases hKey

/- Operations apart from those of many deltas, one by one. -/
theorem Apart.forall_cons_iff
    {ops : List (MapOp κ ν)}
    {d : MapDelta κ ν}
    {ds : List (MapDelta κ ν)} :
    (∀ op ∈ ops,
        ∀ e ∈ d :: ds, ∀ other ∈ e.ops, op.Apart other) ↔
      (∀ op ∈ ops, ∀ other ∈ d.ops, op.Apart other) ∧
        ∀ op ∈ ops,
          ∀ e ∈ ds, ∀ other ∈ e.ops, op.Apart other := by
  simp only [List.forall_mem_cons, forall_and]

variable [Std.TransOrd κ]

/- No key is touched by both. -/
theorem Apart.not_touches
    {op other : MapOp κ ν}
    (h : op.Apart other)
    {k : κ}
    (hTouches : op.touches k = true) :
    other.touches k = false := by
  rcases h with ⟨i, j, hOp, hOther, hNe⟩
  rw [touches_of_key? hOp, beq_iff_eq] at hTouches
  rw [touches_of_key? hOther, beq_eq_false_iff_ne]
  intro hSame
  apply hNe
  exact
    Std.TransCmp.eq_trans hTouches
      (Std.OrientedCmp.eq_symm hSame)

theorem getKey?_act
    (m : Std.ExtTreeMap κ ν)
    (op : MapOp κ ν)
    (k : κ) :
    (op.act m).getKey? k =
      if op.touches k then op.storedKey? else m.getKey? k := by
  cases op with
  | put key value =>
      simp [act, touches, storedKey?,
        Std.ExtTreeMap.getKey?_insert]
  | remove key =>
      simp [act, touches, storedKey?,
        Std.ExtTreeMap.getKey?_erase]
  | clear => simp [act, touches, storedKey?]

/- Operations on different keys may be exchanged. -/
theorem Apart.act_comm
    {op other : MapOp κ ν}
    (h : op.Apart other)
    (m : Std.ExtTreeMap κ ν) :
    other.act (op.act m) = op.act (other.act m) := by
  have hKeys :
      ∀ k : κ,
        (other.act (op.act m)).getKey? k =
          (op.act (other.act m)).getKey? k := by
    intro k
    simp only [getKey?_act]
    cases hTouches : op.touches k with
    | true => simp [h.not_touches hTouches]
    | false => simp
  apply Std.ExtTreeMap.ext_getKey_getElem?
  · intro k hLeft hRight
    have hKey := hKeys k
    rw [Std.ExtTreeMap.getKey?_eq_some_getKey hLeft,
      Std.ExtTreeMap.getKey?_eq_some_getKey hRight] at hKey
    exact Option.some.inj hKey
  · intro k
    simp only [getElem?_act]
    cases hTouches : op.touches k with
    | true => simp [h.not_touches hTouches]
    | false => simp

end MapOp

end OverlayCache

------------------------------------------------------------
-- Records And Received Deltas
------------------------------------------------------------

namespace OverlayCache

namespace TrackedMap

variable {κ ν : Type} [Ord κ] [Std.TransOrd κ]

/- Carry out operations in order, recording them. -/
def recordAll (m : TrackedMap κ ν) (ops : List (MapOp κ ν)) :
    TrackedMap κ ν :=
  ops.foldl record m

/- They change the mappings as one delta would. -/
theorem entries_recordAll
    (m : TrackedMap κ ν)
    (ops : List (MapOp κ ν)) :
    (m.recordAll ops).entries =
      (replayDelta ⟨ops⟩ m).entries := by
  induction ops generalizing m with
  | nil => rfl
  | cons op ops ih =>
      have hRest := ih (m.record op)
      exact
        hRest.trans
          (entries_replayDelta
            (m := m.record op) (n := m.replay op) rfl ⟨ops⟩)

theorem changes_recordAll
    (m : TrackedMap κ ν)
    (ops : List (MapOp κ ν)) :
    (m.recordAll ops).changes = m.changes ++ ops := by
  induction ops generalizing m with
  | nil => exact (List.append_nil m.changes).symm
  | cons op ops ih =>
      have hRest := ih (m.record op)
      exact hRest.trans (List.append_assoc m.changes [op] ops)

/- A mutation and a delta on different keys commute. -/
theorem replayDelta_record_of_apart
    {op : MapOp κ ν}
    {d : MapDelta κ ν}
    (hApart : ∀ other ∈ d.ops, op.Apart other)
    (m : TrackedMap κ ν) :
    replayDelta d (m.record op) =
      (replayDelta d m).record op := by
  rcases d with ⟨others⟩
  unfold replayDelta
  induction others generalizing m with
  | nil => rfl
  | cons other others ih =>
      rcases List.forall_mem_cons.mp hApart with
        ⟨hFirst, hRest⟩
      have hSwap :
          (m.record op).replay other =
            (m.replay other).record op := by
        simp only [replay, record, hFirst.act_comm]
      simp only [List.foldl_cons, hSwap]
      exact ih (m.replay other) hRest

theorem replayDelta_recordAll_of_apart
    {ops : List (MapOp κ ν)}
    {d : MapDelta κ ν}
    (hApart :
      ∀ op ∈ ops, ∀ other ∈ d.ops, op.Apart other)
    (m : TrackedMap κ ν) :
    replayDelta d (m.recordAll ops) =
      (replayDelta d m).recordAll ops := by
  induction ops generalizing m with
  | nil => rfl
  | cons op ops ih =>
      rcases List.forall_mem_cons.mp hApart with
        ⟨hFirst, hRest⟩
      exact
        (ih hRest (m.record op)).trans
          (congrArg (fun n => n.recordAll ops)
            (replayDelta_record_of_apart hFirst m))

theorem foldDeltas_recordAll_of_apart
    {ops : List (MapOp κ ν)}
    {ds : List (MapDelta κ ν)}
    (hApart :
      ∀ op ∈ ops, ∀ d ∈ ds, ∀ other ∈ d.ops, op.Apart other)
    (m : TrackedMap κ ν) :
    (m.recordAll ops).foldDeltas ds =
      (m.foldDeltas ds).recordAll ops := by
  induction ds generalizing m with
  | nil => rfl
  | cons d ds ih =>
      rcases MapOp.Apart.forall_cons_iff.mp hApart with
        ⟨hFirst, hRest⟩
      exact
        (congrArg (fun n => n.foldDeltas ds)
          (replayDelta_recordAll_of_apart hFirst m)).trans
          (ih hRest (replayDelta d m))

end TrackedMap

end OverlayCache

------------------------------------------------------------
-- Mixtures Of Calls
------------------------------------------------------------

namespace OverlayCache

namespace TrackedMap

variable {κ ν : Type}

/-
  Calls that carry out some operations and receive some
  deltas, both in their order, in any mixture.
-/
inductive Interleaved :
    List (MapOp κ ν) →
      List (MapDelta κ ν) → List (Call κ ν) → Prop
| nil : Interleaved [] [] []
| perform
    (op : MapOp κ ν)
    {ops : List (MapOp κ ν)}
    {ds : List (MapDelta κ ν)}
    {cs : List (Call κ ν)}
    (h : Interleaved ops ds cs) :
    Interleaved (op :: ops) ds (.perform op :: cs)
| apply
    (d : MapDelta κ ν)
    {ops : List (MapOp κ ν)}
    {ds : List (MapDelta κ ν)}
    {cs : List (Call κ ν)}
    (h : Interleaved ops ds cs) :
    Interleaved ops (d :: ds) (.apply d :: cs)

/- What a mutation gives back, which other calls do not. -/
def Reply.previous? : Reply κ ν → Option (Option ν)
| .previous value => some value
| _ => none

variable [Ord κ] [Std.TransOrd κ]

/- A mutation gives back what the map has under its key. -/
theorem perform_fst
    (m : TrackedMap κ ν)
    (op : MapOp κ ν) :
    (m.perform op).1 = op.key?.bind m.get? := by
  cases op with
  | put key value => rfl
  | remove key => rfl
  | clear => rfl

/- A delta on other keys does not reach what is given back. -/
theorem perform_fst_of_apart
    {op : MapOp κ ν}
    {d : MapDelta κ ν}
    (hApart : ∀ other ∈ d.ops, op.Apart other)
    (m : TrackedMap κ ν) :
    ((replayDelta d m).perform op).1 = (m.perform op).1 := by
  rw [perform_fst, perform_fst]
  cases hKey : op.key? with
  | none => rfl
  | some key =>
      have hTouched : op.touches key = true := by
        rw [MapOp.touches_of_key? hKey]
        simp
      have hSpared : d.touches key = false := by
        simp only [MapDelta.touches, List.any_eq_false]
        intro other hMem
        simp [(hApart other hMem).not_touches hTouched]
      simp only [Option.bind_some]
      rw [get?_replayDelta, hSpared]
      rfl

/- Nor what the mutations by themselves give back. -/
theorem replies_performs_of_apart
    {ops : List (MapOp κ ν)}
    {d : MapDelta κ ν}
    (hApart :
      ∀ op ∈ ops, ∀ other ∈ d.ops, op.Apart other)
    (m : TrackedMap κ ν) :
    ((replayDelta d m).run (ops.map .perform)).1 =
      (m.run (ops.map .perform)).1 := by
  induction ops generalizing m with
  | nil => rfl
  | cons op ops ih =>
      rcases List.forall_mem_cons.mp hApart with
        ⟨hFirst, hRest⟩
      simp only [List.map_cons, run, call, perform_snd,
        perform_fst_of_apart hFirst,
        ← replayDelta_record_of_apart hFirst, ih hRest]

namespace Interleaved

variable {ops : List (MapOp κ ν)}
variable {ds : List (MapDelta κ ν)}
variable {cs : List (Call κ ν)}

/-
  The map ends as if it had been mutated first and had
  received the deltas afterwards.
-/
theorem run_snd
    (h : Interleaved ops ds cs)
    (hApart :
      ∀ op ∈ ops, ∀ d ∈ ds, ∀ other ∈ d.ops, op.Apart other)
    (m : TrackedMap κ ν) :
    (m.run cs).2 = (m.recordAll ops).foldDeltas ds := by
  induction h generalizing m with
  | nil => rfl
  | perform op h ih =>
      rcases List.forall_mem_cons.mp hApart with ⟨_, hRest⟩
      simp only [run, call, perform_snd]
      exact ih hRest (m.record op)
  | @apply d ops ds cs h ih =>
      rcases MapOp.Apart.forall_cons_iff.mp hApart with
        ⟨hFirst, hRest⟩
      simp only [run, call]
      rw [ih hRest, ← replayDelta_recordAll_of_apart hFirst]
      rfl

/- Every mutation gives back what it would by itself. -/
theorem previous_run
    (h : Interleaved ops ds cs)
    (hApart :
      ∀ op ∈ ops, ∀ d ∈ ds, ∀ other ∈ d.ops, op.Apart other)
    (m : TrackedMap κ ν) :
    (m.run cs).1.filterMap Reply.previous? =
      (m.run (ops.map .perform)).1.filterMap
        Reply.previous? := by
  induction h generalizing m with
  | nil => rfl
  | perform op h ih =>
      rcases List.forall_mem_cons.mp hApart with ⟨_, hRest⟩
      simp only [List.map_cons, run, call, perform_snd,
        List.filterMap_cons, ih hRest]
  | @apply d ops ds cs h ih =>
      rcases MapOp.Apart.forall_cons_iff.mp hApart with
        ⟨hFirst, hRest⟩
      have hReplies := ih hRest (replayDelta d m)
      rw [replies_performs_of_apart hFirst] at hReplies
      exact hReplies

end Interleaved

/-
  A map without recorded changes is mutated directly, and
  receives deltas in between.  No delta clears the map, no
  mutation does, and no key is written to by both.  However
  they are mixed, the map ends with the mappings that it has
  if the mutations all come first, and if they all come last.
  Every mutation gives back what it gives back by itself, and
  what the map exports in the end are the mutations in order.
-/
theorem mixed_calls_commute
    {m : TrackedMap κ ν}
    (hClean : m.changes = [])
    {ops : List (MapOp κ ν)}
    {ds : List (MapDelta κ ν)}
    (hApart :
      ∀ op ∈ ops, ∀ d ∈ ds, ∀ other ∈ d.ops, op.Apart other)
    {cs : List (Call κ ν)}
    (hMixed : Interleaved ops ds cs) :
    let r := m.run cs
    r.2.entries =
        ((replayDelta ⟨ops⟩ m).foldDeltas ds).entries ∧
      r.2.entries =
        (replayDelta ⟨ops⟩ (m.foldDeltas ds)).entries ∧
      r.1.filterMap Reply.previous? =
        (m.run (ops.map .perform)).1.filterMap
          Reply.previous? ∧
      (r.2.call .drain).1 = .drained ⟨ops⟩ := by
  intro r
  have hEnd : r.2 = (m.recordAll ops).foldDeltas ds :=
    hMixed.run_snd hApart m
  refine ⟨?_, ?_, hMixed.previous_run hApart m, ?_⟩
  · rw [hEnd]
    exact entries_foldDeltas (m.entries_recordAll ops) ds
  · rw [hEnd, foldDeltas_recordAll_of_apart hApart,
      entries_recordAll]
  · have hChanges : r.2.changes = ops := by
      rw [hEnd, changes_foldDeltas, changes_recordAll, hClean,
        List.nil_append]
    simp only [call, drain, hChanges]

/-
  A key is put, received deltas remove and put others, and the
  key is removed again.
-/
theorem mixed_calls_commute_removed :
    let m : TrackedMap Nat Nat := .ofList [(1, 10), (2, 20)]
    let ops : List (MapOp Nat Nat) :=
      [.put 1 11, .remove 5, .remove 1]
    let ds : List (MapDelta Nat Nat) :=
      [⟨[.remove 2, .put 3 30]⟩, ⟨[.put 2 22]⟩]
    let cs : List (Call Nat Nat) :=
      [.apply ⟨[.remove 2, .put 3 30]⟩, .perform (.put 1 11),
        .perform (.remove 5), .apply ⟨[.put 2 22]⟩,
        .perform (.remove 1)]
    let r := m.run cs
    (∀ op ∈ ops, ∀ d ∈ ds, ∀ other ∈ d.ops, op.Apart other) ∧
      Interleaved ops ds cs ∧
      r.2.entries =
        (replayDelta ⟨ops⟩ (m.foldDeltas ds)).entries ∧
      r.2.toList = [(2, 22), (3, 30)] ∧
      r.1.filterMap Reply.previous? =
        [some 10, none, some 11] ∧
      (r.2.call .drain).1 = .drained ⟨ops⟩ := by
  intro m ops ds cs r
  have hApart :
      ∀ op ∈ ops,
        ∀ d ∈ ds, ∀ other ∈ d.ops, op.Apart other := by
    simp [ops, ds, MapOp.Apart, MapOp.key?]
  have hMixed : Interleaved ops ds cs :=
    .apply _
      (.perform _ (.perform _ (.apply _ (.perform _ .nil))))
  rcases mixed_calls_commute (m := m) rfl hApart hMixed with
    ⟨_, hLast, hReplies, hDrained⟩
  exact
    ⟨hApart, hMixed, hLast, by decide, hReplies.trans rfl,
      hDrained⟩

end TrackedMap

end OverlayCache
