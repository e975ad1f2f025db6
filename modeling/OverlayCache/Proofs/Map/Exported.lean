import OverlayCache.Proofs.Map.Touched

/-
  What a tracked map exports of its changes.

  Every direct mutation is recorded, and each time the map is
  drained the records go into a delta.  Put end to end, the
  drained deltas and what is still recorded are the direct
  mutations in order.  As they are carried out in the same
  way when they are replayed, the deltas reproduce a map that
  only changes directly.

  Deltas that a map receives are not recorded.  What it then
  exports leaves a key as the direct mutations alone do.

  Key definitions include:
    * `TrackedMap.Call.effect`
    * `TrackedMap.Call.recorded?`
    * `TrackedMap.Call.lastOn?`
    * `TrackedMap.run`

  The main statements are:
    * `TrackedMap.ops_drained_run`
    * `TrackedMap.entries_run`
    * `TrackedMap.get?_run`
    * `TrackedMap.exported_deltas_reproduce`
    * `TrackedMap.export_reproduces_iff`
-/

------------------------------------------------------------
-- Calls And Their Records
------------------------------------------------------------

namespace OverlayCache

namespace TrackedMap

variable {κ ν : Type}

namespace Call

/- What a call does to the mappings, as a delta. -/
def effect : Call κ ν → MapDelta κ ν
| .perform op => .single op
| .apply delta => delta
| .drain => .empty
| .settle => .empty

/- The operation that a call records, if it records one. -/
def recorded? : Call κ ν → Option (MapOp κ ν)
| .perform op => some op
| _ => none

/- Whether a call is a direct mutation. -/
def isDirect (c : Call κ ν) : Bool :=
  c.recorded?.isSome

/- The calls of a map that no deltas arrive at. -/
def IsOwn : Call κ ν → Prop
| .perform _ => True
| .drain => True
| _ => False

/- The calls that change mappings. -/
def IsChange : Call κ ν → Prop
| .perform _ => True
| .apply _ => True
| _ => False

/- The last call that touches a key. -/
def lastOn?
    [Ord κ]
    (k : κ)
    (cs : List (Call κ ν)) : Option (Call κ ν) :=
  cs.reverse.find? (fun c => c.effect.touches k)

end Call

/- The delta that a caller is given, if there is one. -/
def Reply.drained? : Reply κ ν → Option (MapDelta κ ν)
| .drained delta => some delta
| _ => none

variable [Ord κ] [Std.TransOrd κ]

/- Carry out calls in order, collecting the replies. -/
def run
    (m : TrackedMap κ ν) :
    List (Call κ ν) → List (Reply κ ν) × TrackedMap κ ν
| [] => ([], m)
| c :: cs =>
    let t := m.call c
    let r := t.2.run cs
    (t.1 :: r.1, r.2)

end TrackedMap

end OverlayCache

------------------------------------------------------------
-- Runs Of Calls
------------------------------------------------------------

namespace OverlayCache

namespace TrackedMap

variable {κ ν : Type} [Ord κ] [Std.TransOrd κ]

/- A direct mutation is carried out and recorded. -/
theorem perform_snd
    (m : TrackedMap κ ν)
    (op : MapOp κ ν) :
    (m.perform op).2 = m.record op := by
  cases op with
  | put key value => rfl
  | remove key => rfl
  | clear => rfl

/- A call changes the mappings as its effect does. -/
theorem entries_call
    (m : TrackedMap κ ν)
    (c : Call κ ν) :
    (m.call c).2.entries =
      (replayDelta c.effect m).entries := by
  cases c with
  | perform op =>
      change (m.perform op).2.entries = _
      rw [perform_snd]
      rfl
  | apply delta => rfl
  | drain => rfl
  | settle => rfl

theorem run_snd
    (m : TrackedMap κ ν)
    (cs : List (Call κ ν)) :
    (m.run cs).2 = cs.foldl (fun n c => (n.call c).2) m := by
  induction cs generalizing m with
  | nil => rfl
  | cons c cs ih => exact ih (m.call c).2

theorem entries_run
    (m : TrackedMap κ ν)
    (cs : List (Call κ ν)) :
    (m.run cs).2.entries =
      (m.foldDeltas (cs.map Call.effect)).entries := by
  induction cs generalizing m with
  | nil => rfl
  | cons c cs ih =>
      have hRest := ih (m.call c).2
      exact
        hRest.trans
          (entries_foldDeltas (m.entries_call c) _)

/- A call drains and keeps what was recorded, with its own. -/
theorem ops_drained_call
    (m : TrackedMap κ ν)
    {c : Call κ ν}
    (hKept : c ≠ .settle) :
    (m.call c).1.drained?.toList.flatMap MapDelta.ops ++
        (m.call c).2.changes =
      m.changes ++ c.recorded?.toList := by
  cases c with
  | perform op =>
      change (m.perform op).2.changes = m.changes ++ [op]
      rw [perform_snd]
      rfl
  | apply delta =>
      change (replayDelta delta m).changes = m.changes ++ []
      rw [changes_replayDelta, List.append_nil]
  | drain =>
      simp [call, drain, settle, Reply.drained?,
        Call.recorded?]
  | settle => exact absurd rfl hKept

/-
  The drained deltas and what is still recorded hold what was
  recorded before and every direct mutation, in order.
-/
theorem ops_drained_run
    (m : TrackedMap κ ν)
    {cs : List (Call κ ν)}
    (hKept : .settle ∉ cs) :
    ((m.run cs).1.filterMap Reply.drained?).flatMap
          MapDelta.ops ++
        (m.run cs).2.changes =
      m.changes ++ cs.filterMap Call.recorded? := by
  induction cs generalizing m with
  | nil => simp [run]
  | cons c cs ih =>
      simp only [List.mem_cons, not_or] at hKept
      have hFirst := m.ops_drained_call (Ne.symm hKept.1)
      have hRest := ih (m.call c).2 hKept.2
      have hReplies :
          (m.run (c :: cs)).1.filterMap Reply.drained? =
            (m.call c).1.drained?.toList ++
              ((m.call c).2.run cs).1.filterMap
                Reply.drained? := by
        simp only [run, List.filterMap_cons]
        cases (m.call c).1.drained? <;> rfl
      have hRecorded :
          (c :: cs).filterMap Call.recorded? =
            c.recorded?.toList ++
              cs.filterMap Call.recorded? := by
        simp only [List.filterMap_cons]
        cases c.recorded? <;> rfl
      change _ ++ ((m.call c).2.run cs).2.changes = _
      rw [hReplies, hRecorded, List.flatMap_append,
        List.append_assoc, hRest, ← List.append_assoc,
        hFirst, List.append_assoc]

/- The last call that touches a key decides about it. -/
theorem get?_run
    (m : TrackedMap κ ν)
    (cs : List (Call κ ν))
    (k : κ) :
    (m.run cs).2.get? k =
      ((Call.lastOn? k cs).map
        (fun c => (replayDelta c.effect empty).get? k)).getD
          (m.get? k) := by
  have hStep :
      ∀ (n : TrackedMap κ ν) (c : Call κ ν),
        (n.call c).2.get? k =
          if c.effect.touches k then
            (replayDelta c.effect empty).get? k
          else
            n.get? k := by
    intro n c
    rw [← get?_replayDelta]
    exact congrArg (fun es => es[k]?) (n.entries_call c)
  rw [run_snd]
  exact view_foldl_of_overwrites (fun n => n.get? k) hStep m cs

end TrackedMap

end OverlayCache

------------------------------------------------------------
-- Maps That Only Change Directly
------------------------------------------------------------

namespace OverlayCache

namespace TrackedMap

variable {κ ν : Type} [Ord κ] [Std.TransOrd κ]

/- Deltas fold like one delta with all their operations. -/
theorem foldDeltas_eq_replayDelta
    (m : TrackedMap κ ν)
    (ds : List (MapDelta κ ν)) :
    m.foldDeltas ds =
      replayDelta ⟨ds.flatMap MapDelta.ops⟩ m := by
  simp only [replayDelta, List.foldl_flatMap]
  rfl

/- The effects of own calls are what they record. -/
omit [Ord κ] [Std.TransOrd κ] in
theorem Call.ops_effect_of_own
    {cs : List (Call κ ν)}
    (hOwn : ∀ c ∈ cs, c.IsOwn) :
    (cs.map Call.effect).flatMap MapDelta.ops =
      cs.filterMap Call.recorded? := by
  induction cs with
  | nil => rfl
  | cons c cs ih =>
      simp only [List.mem_cons, forall_eq_or_imp] at hOwn
      have hRest := ih hOwn.2
      cases c with
      | perform op =>
          simpa [effect, recorded?, MapDelta.single]
            using hRest
      | apply delta => exact hOwn.1.elim
      | drain =>
          simpa [List.filterMap_cons, effect, recorded?,
            MapDelta.empty] using hRest
      | settle => exact hOwn.1.elim

/-
  A map without recorded changes goes through direct mutations
  and is drained now and then, and once more in the end.  A
  copy of it that takes the drained deltas in has the same
  mappings then, and never records a change.  The deltas hold
  every mutation once and in order, and nothing is left to be
  drained.
-/
theorem exported_deltas_reproduce
    {m : TrackedMap κ ν}
    (hClean : m.changes = [])
    {cs : List (Call κ ν)}
    (hOwn : ∀ c ∈ cs, c.IsOwn) :
    let r := m.run cs
    let last := r.2.drain
    let ds := r.1.filterMap Reply.drained? ++ [last.1]
    (Aggregate.applyAll ds m).entries = last.2.entries ∧
      ds.flatMap MapDelta.ops =
        cs.filterMap Call.recorded? ∧
      last.2.changes = [] ∧
      ∀ es : List (MapDelta κ ν),
        es <+: ds → (Aggregate.applyAll es m).changes = [] := by
  intro r last ds
  have hKept : Call.settle ∉ cs := fun hMem => hOwn _ hMem
  have hOps :
      ds.flatMap MapDelta.ops =
        cs.filterMap Call.recorded? := by
    have hDrained := m.ops_drained_run hKept
    rw [hClean, List.nil_append] at hDrained
    simpa [ds, last, drain, r] using hDrained
  refine ⟨?_, hOps, rfl, ?_⟩
  · have hNow : last.2.entries = r.2.entries := rfl
    rw [hNow, entries_run, applyAll_eq_foldDeltas,
      foldDeltas_eq_replayDelta, foldDeltas_eq_replayDelta,
      hOps, Call.ops_effect_of_own hOwn]
  · intro es _
    rw [applyAll_eq_foldDeltas, changes_foldDeltas, hClean]

/-
  The removal finds nothing and is exported all the same, and
  so is the clear after it, in a delta of their own.
-/
theorem exported_deltas_of_drained :
    let m : TrackedMap Nat Nat := .ofList [(1, 10)]
    let cs : List (Call Nat Nat) :=
      [.perform (.put 2 20), .drain, .perform (.remove 9),
        .perform .clear, .drain, .perform (.put 1 11)]
    let r := m.run cs
    let last := r.2.drain
    let ds := r.1.filterMap Reply.drained? ++ [last.1]
    ds =
        [⟨[.put 2 20]⟩, ⟨[.remove 9, .clear]⟩,
          ⟨[.put 1 11]⟩] ∧
      (Aggregate.applyAll ds m).entries = last.2.entries ∧
      last.2.toList = [(1, 11)] ∧
      last.2.changes = [] := by
  intro m cs r last ds
  have hOwn : ∀ c ∈ cs, c.IsOwn := by simp [cs, Call.IsOwn]
  rcases exported_deltas_reproduce (m := m) rfl hOwn with
    ⟨hEntries, _, hChanges, _⟩
  exact ⟨by decide, hEntries, by decide, hChanges⟩

end TrackedMap

end OverlayCache

------------------------------------------------------------
-- Maps That Receive Deltas
------------------------------------------------------------

namespace OverlayCache

namespace TrackedMap

namespace Call

variable {κ ν : Type} [Ord κ]
variable {k : κ} {cs : List (Call κ ν)}

/- A direct mutation that comes last stays the last one. -/
theorem lastOn?_filter_isDirect
    {c : Call κ ν}
    (hLast : lastOn? k cs = some c)
    (hDirect : c.isDirect = true) :
    lastOn? k (cs.filter isDirect) = some c := by
  unfold lastOn? at hLast ⊢
  rw [← List.filter_reverse, List.find?_filter]
  rw [List.find?_eq_some_iff_append] at hLast ⊢
  rcases hLast with ⟨hTouches, later, earlier, hSplit, hLater⟩
  refine ⟨by simp [hDirect, hTouches], later, earlier,
    hSplit, ?_⟩
  intro a hMem
  have hUntouched := hLater a hMem
  simp only [Bool.not_eq_true'] at hUntouched
  simp [hUntouched]

/- A key that no call touches is not touched directly. -/
theorem lastOn?_filter_of_none
    (hNone : lastOn? k cs = none) :
    lastOn? k (cs.filter isDirect) = none := by
  unfold lastOn? at hNone ⊢
  rw [List.find?_eq_none] at hNone ⊢
  intro c hMem
  apply hNone c
  rw [List.mem_reverse] at hMem ⊢
  exact (List.mem_filter.mp hMem).1

end Call

variable {κ ν : Type} [Ord κ] [Std.TransOrd κ]

/-
  No delta that is received touches a key last and leaves
  something else there than the direct mutations alone.
-/
def Undisturbed
    (m : TrackedMap κ ν)
    (cs : List (Call κ ν))
    (k : κ) : Prop :=
  ∀ d : MapDelta κ ν,
    Call.lastOn? k cs = some (.apply d) →
      (m.run (cs.filter Call.isDirect)).2.get? k =
        (replayDelta d empty).get? k

/-
  Without the deltas that it receives, a map has the same
  under a key exactly when none of them disturbs it.
-/
theorem get?_run_direct_iff
    (m : TrackedMap κ ν)
    {cs : List (Call κ ν)}
    (hChanges : ∀ c ∈ cs, c.IsChange)
    (k : κ) :
    (m.run (cs.filter Call.isDirect)).2.get? k =
        (m.run cs).2.get? k ↔
      m.Undisturbed cs k := by
  have hNow := m.get?_run cs k
  have hAlone := m.get?_run (cs.filter Call.isDirect) k
  unfold Undisturbed
  cases hLast : Call.lastOn? k cs with
  | none =>
      rw [hLast] at hNow
      rw [Call.lastOn?_filter_of_none hLast] at hAlone
      rw [hNow, hAlone]
      simp
  | some c =>
      rw [hLast] at hNow
      have hMem : c ∈ cs :=
        List.mem_reverse.mp (List.mem_of_find?_eq_some hLast)
      -- Only a received delta can come last and differ.
      cases c with
      | perform op =>
          rw [Call.lastOn?_filter_isDirect hLast rfl] at hAlone
          rw [hNow, hAlone]
          simp
      | apply d =>
          rw [hNow]
          simp [Call.effect]
      | drain => exact (hChanges _ hMem).elim
      | settle => exact (hChanges _ hMem).elim

/- Calls that only change the map drain nothing. -/
theorem drained_run_of_changes
    (m : TrackedMap κ ν)
    {cs : List (Call κ ν)}
    (hChanges : ∀ c ∈ cs, c.IsChange) :
    (m.run cs).1.filterMap Reply.drained? = [] := by
  induction cs generalizing m with
  | nil => rfl
  | cons c cs ih =>
      simp only [List.mem_cons, forall_eq_or_imp] at hChanges
      have hRest := ih (m.call c).2 hChanges.2
      cases c with
      | perform op => exact hRest
      | apply d => exact hRest
      | drain => exact hChanges.1.elim
      | settle => exact hChanges.1.elim

/- So the map has all their records in the end. -/
theorem changes_run
    (m : TrackedMap κ ν)
    {cs : List (Call κ ν)}
    (hChanges : ∀ c ∈ cs, c.IsChange) :
    (m.run cs).2.changes =
      m.changes ++ cs.filterMap Call.recorded? := by
  have hKept : Call.settle ∉ cs :=
    fun hMem => hChanges _ hMem
  have hOps := m.ops_drained_run hKept
  rw [m.drained_run_of_changes hChanges] at hOps
  exact hOps

/- Direct mutations alone do what is recorded of all calls. -/
theorem entries_run_direct
    (m : TrackedMap κ ν)
    (cs : List (Call κ ν)) :
    (m.run (cs.filter Call.isDirect)).2.entries =
      (replayDelta ⟨cs.filterMap Call.recorded?⟩ m).entries := by
  have hOwn :
      ∀ c ∈ cs.filter Call.isDirect, c.IsOwn := by
    intro c hMem
    have hDirect := (List.mem_filter.mp hMem).2
    cases c with
    | perform op => trivial
    | apply d => cases hDirect
    | drain => trivial
    | settle => cases hDirect
  have hRecorded :
      (fun c : Call κ ν =>
          if c.isDirect then c.recorded? else none) =
        Call.recorded? := by
    funext c
    cases c <;> rfl
  rw [entries_run, foldDeltas_eq_replayDelta,
    Call.ops_effect_of_own hOwn, List.filterMap_filter,
    hRecorded]

/-
  A map is settled, and then goes through direct mutations and
  received deltas in any order.  What it exports in the end
  are the direct mutations, so a copy from the time when it
  was settled comes to what they alone make of it.  The copy
  has under a key what the map has exactly when no received
  delta disturbs the key.
-/
theorem export_reproduces_iff
    [Std.LawfulEqOrd κ]
    (m : TrackedMap κ ν)
    {cs : List (Call κ ν)}
    (hChanges : ∀ c ∈ cs, c.IsChange) :
    let start := m.settle
    let now := (start.run cs).2
    let replica := replayDelta now.drain.1 start
    now.drain.1.ops = cs.filterMap Call.recorded? ∧
      replica.entries =
        (start.run (cs.filter Call.isDirect)).2.entries ∧
      (∀ k : κ,
        replica.get? k = now.get? k ↔
          start.Undisturbed cs k) ∧
      (replica.entries = now.entries ↔
        ∀ k : κ, start.Undisturbed cs k) := by
  intro start now replica
  have hOps : now.drain.1.ops = cs.filterMap Call.recorded? :=
    start.changes_run hChanges
  have hReplica :
      replica.entries =
        (start.run (cs.filter Call.isDirect)).2.entries := by
    rw [entries_run_direct, ← hOps]
  have hKey :
      ∀ k : κ,
        replica.get? k = now.get? k ↔
          start.Undisturbed cs k := by
    intro k
    rw [← start.get?_run_direct_iff hChanges k]
    unfold get?
    rw [hReplica]
  refine ⟨hOps, hReplica, hKey, ?_, ?_⟩
  · intro hSame k
    exact (hKey k).mp (congrArg (fun es => es[k]?) hSame)
  · intro hAll
    exact Std.ExtTreeMap.ext_getElem? fun k =>
      (hKey k).mpr (hAll k)

/-
  A received delta writes under two keys.  A later mutation
  has the last word on one of them, and the other one differs.
-/
theorem export_of_mixed_calls :
    let m : TrackedMap Nat Nat := .ofList [(3, 7)]
    let cs : List (Call Nat Nat) :=
      [.perform (.put 1 10), .apply ⟨[.put 2 5, .remove 3]⟩,
        .perform (.put 2 6)]
    let now := (m.settle.run cs).2
    let replica := replayDelta now.drain.1 m.settle
    replica.get? 2 = now.get? 2 ∧
      replica.get? 3 = some 7 ∧
      now.get? 3 = none ∧
      ¬ m.settle.Undisturbed cs 3 := by
  intro m cs now replica
  have hChanges : ∀ c ∈ cs, c.IsChange := by
    simp [cs, Call.IsChange]
  have hKey := (export_reproduces_iff m hChanges).2.2.1
  have hDirect : m.settle.Undisturbed cs 2 := by
    intro d hLast
    have hNot : Call.lastOn? 2 cs = some (.perform (.put 2 6)) :=
      rfl
    rw [hNot] at hLast
    cases hLast
  have hReplica : replica.get? 3 = some 7 := by decide
  have hNow : now.get? 3 = none := by decide
  refine ⟨(hKey 2).mpr hDirect, hReplica, hNow, ?_⟩
  intro hUndisturbed
  have hSame : replica.get? 3 = now.get? 3 :=
    (hKey 3).mpr hUndisturbed
  rw [hReplica, hNow] at hSame
  cases hSame

/-
  A received delta overwrites a direct mutation.  The map
  exports the mutation only.
-/
theorem export_misses_received :
    let m : TrackedMap String Nat := empty
    let cs : List (Call String Nat) :=
      [.perform (.put "a" 1), .apply ⟨[.put "a" 2]⟩]
    let now := (m.settle.run cs).2
    let replica := replayDelta now.drain.1 m.settle
    now.drain.1.ops = [.put "a" 1] ∧
      replica.toList = [("a", 1)] ∧
      now.toList = [("a", 2)] ∧
      replica.entries ≠ now.entries := by
  intro m cs now replica
  have hReplica : replica.toList = [("a", 1)] := by
    decide +kernel
  have hNow : now.toList = [("a", 2)] := by
    decide +kernel
  refine ⟨rfl, hReplica, hNow, ?_⟩
  intro hSame
  have hLists : replica.toList = now.toList :=
    congrArg (fun es => es.toList) hSame
  rw [hReplica, hNow] at hLists
  simp at hLists

end TrackedMap

end OverlayCache
