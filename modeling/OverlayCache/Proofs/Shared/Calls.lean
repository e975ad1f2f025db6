import OverlayCache.Proofs.Absorb
import OverlayCache.Proofs.Commit.Noted
import OverlayCache.Proofs.Map.Exported
import OverlayCache.Workspace.Shared

/-
  The calls that reach the map behind a handle.

  A map is called directly, through any name of its handle,
  and by the commits of entries that hold the handle.  A run
  does to the map what these calls do to it in order, and a
  step that does not call it leaves it alone.

  Key definitions include:
    * `Told.call`
    * `MapHandle.callsIn`
    * `Heap.Called`
    * `SharedWorkspace.callsOn`
    * `SharedWorkspace.callsIn`

  The main statements are:
    * `MapHandle.read_commit`
    * `SharedWorkspace.store_step`
    * `SharedWorkspace.read_step`
    * `SharedWorkspace.read_run`
-/

------------------------------------------------------------
-- What A Layer Tells Its Value
------------------------------------------------------------

namespace OverlayCache

namespace Told

variable {α δ : Type} [Inhabited α] [Aggregate α δ]

/-
  Whoever replays deltas tells the value to apply them in
  order and then to settle, and nothing without deltas.
-/
def telling (ds : List δ) : List (Told δ) :=
  if ds.isEmpty then
    []
  else
    ds.map .apply ++ [.settle]

theorem applyAll_handle_noted
    (ds : List δ)
    (g : Handle α)
    (s : Heap α × List (Handle α × Told δ)) :
    Handle.holding.noted.applyAll ds g s =
      (g, (Holding.applyAll ds g s.1).2,
        s.2 ++ ds.map (fun d => (g, .apply d))) := by
  induction ds generalizing s with
  | nil => simp [Holding.applyAll]
  | cons d ds ih =>
      have hRest := ih (Handle.holding.noted.apply d g s).2
      rw [List.map_cons, List.append_cons]
      exact hRest

/- A replay notes what it tells the handle, and no more. -/
theorem replay_handle_noted
    (ds : List δ)
    (g : Handle α)
    (s : Heap α × List (Handle α × Told δ)) :
    Handle.holding.noted.replay ds g s =
      (g, (Holding.replay ds g s.1).2,
        s.2 ++ (telling ds).map (fun t => (g, t))) := by
  unfold Holding.replay telling
  by_cases hNil : ds.isEmpty
  · simp [hNil]
  · simp only [hNil, applyAll_handle_noted,
      Holding.applyAll_handle_fst]
    simp [Holding.settle]

end Told

end OverlayCache

------------------------------------------------------------
-- Calls Of Commits
------------------------------------------------------------

namespace OverlayCache

namespace TrackedMap

variable {κ ν : Type} [Ord κ] [Std.TransOrd κ]

theorem run_append
    (m : TrackedMap κ ν)
    (cs ds : List (Call κ ν)) :
    (m.run (cs ++ ds)).2 = ((m.run cs).2.run ds).2 := by
  simp [run_snd]

end TrackedMap

namespace Told

variable {κ ν : Type}

/- What a map is told, as a call. -/
def call : Told (MapDelta κ ν) → TrackedMap.Call κ ν
| .apply delta => .apply delta
| .settle => .settle

/- A map that is told to take deltas in absorbs them. -/
theorem run_telling
    [Ord κ] [Std.TransOrd κ]
    (ds : List (MapDelta κ ν))
    (m : TrackedMap κ ν) :
    (m.run ((telling ds).map call)).2 =
      Aggregate.absorb ds m := by
  have hApplied :
      ∀ es : List (MapDelta κ ν),
        (m.run ((es.map Told.apply).map call)).2 =
          Aggregate.applyAll es m := by
    intro es
    rw [TrackedMap.run_snd, List.map_map, List.foldl_map]
    rfl
  unfold telling
  by_cases hNil : ds = []
  · subst hNil
    rfl
  · rw [Aggregate.absorb_of_ne_nil hNil]
    simp only [List.isEmpty_iff, hNil, if_false,
      List.map_append, TrackedMap.run_append, hApplied]
    rfl

end Told

namespace MapHandle

variable {κ ν : Type} [Ord κ]

/- What the notes say about a handle, as calls on its map. -/
def callsIn
    (h : MapHandle κ ν)
    (notes : List (MapHandle κ ν × Told (MapDelta κ ν))) :
    List (TrackedMap.Call κ ν) :=
  (notes.filter (fun n => n.1 = h)).map (fun n => n.2.call)

theorem callsIn_append
    (h : MapHandle κ ν)
    (ns os : List (MapHandle κ ν × Told (MapDelta κ ν))) :
    h.callsIn (ns ++ os) = h.callsIn ns ++ h.callsIn os := by
  simp [callsIn]

theorem callsIn_telling
    (h g : MapHandle κ ν)
    (ds : List (MapDelta κ ν)) :
    h.callsIn ((Told.telling ds).map (fun t => (g, t))) =
      if g = h then (Told.telling ds).map Told.call else [] := by
  unfold callsIn
  by_cases hEq : g = h
  · have hAll :
        ∀ n ∈ (Told.telling ds).map (fun t => (g, t)),
          decide (n.1 = h) = true := by
      simp [hEq]
    rw [if_pos hEq, List.filter_eq_self.mpr hAll,
      List.map_map]
    rfl
  · simp [hEq, List.filter_map, Function.comp_def]

variable [Std.TransOrd κ]
variable {γ K : Type}
  [Repository γ K (MapHandle κ ν)]

/-
  A commit does to a map what it is noted to call there, and
  leaves the maps alone that it does not call.
-/
theorem read_commit
    (h : MapHandle κ ν)
    (e : Entry K (MapHandle κ ν) (MapDelta κ ν)
      (TrackedMap κ ν))
    (c : γ)
    (s : Heap (TrackedMap κ ν))
    (version : Option Version) :
    (e.commit c s version).store.read h =
      ((s.read h).run
        (h.callsIn (e.notes c s version))).2 := by
  let P (t : Heap (TrackedMap κ ν) ×
      List (MapHandle κ ν × Told (MapDelta κ ν))) : Prop :=
    t.1.read h = ((s.read h).run (h.callsIn t.2)).2
  refine Entry.notes_keep (P := P) ?_ rfl e c version
  intro ds g t hSoFar
  simp only [P] at hSoFar ⊢
  rw [Told.replay_handle_noted, callsIn_append,
    TrackedMap.run_append, ← hSoFar, Heap.read_replay,
    callsIn_telling]
  by_cases hEq : g = h
  · simp [hEq, Told.run_telling]
  · have hNe : ¬ h = g := fun hSame => hEq hSame.symm
    simp [hEq, hNe, TrackedMap.run]

end MapHandle

end OverlayCache

------------------------------------------------------------
-- Calls Of Runs
------------------------------------------------------------

namespace OverlayCache

namespace Heap

variable {κ ν : Type} [Ord κ] [Std.TransOrd κ]

/-
  What becomes of a heap when its maps are called.  Either a
  new map is made and none is called, or each map goes through
  its own calls.
-/
inductive Called
    (s : Heap (TrackedMap κ ν))
    (calls : MapHandle κ ν → List (TrackedMap.Call κ ν)) :
    Heap (TrackedMap κ ν) → Prop
| made
    {s' : Heap (TrackedMap κ ν)}
    (m : TrackedMap κ ν)
    (hStore : s' = (s.alloc m).2)
    (hNone : ∀ h : MapHandle κ ν, calls h = []) :
    Called s calls s'
| called
    {s' : Heap (TrackedMap κ ν)}
    (hNext : s'.next = s.next)
    (hRead :
      ∀ h : MapHandle κ ν,
        s'.read h = ((s.read h).run (calls h)).2) :
    Called s calls s'

theorem Called.unchanged
    {s s' : Heap (TrackedMap κ ν)}
    {calls : MapHandle κ ν → List (TrackedMap.Call κ ν)}
    (hSame : s' = s)
    (hNone : ∀ h : MapHandle κ ν, calls h = []) :
    s.Called calls s' := by
  refine .called (congrArg Heap.next hSame) (fun h => ?_)
  rw [hSame, hNone h]
  rfl

end Heap

/- A commit makes no aggregate. -/
theorem Entry.next_commit
    {γ K α δ ω : Type}
    [Inhabited α] [Aggregate α δ] [Delta δ ω]
    [Repository γ K (Handle α)]
    (e : Entry K (Handle α) δ ω)
    (c : γ)
    (s : Heap α)
    (version : Option Version) :
    (e.commit c s version).store.next = s.next := by
  apply Entry.commit_keeps
    (P := fun t : Heap α => t.next = s.next)
  · intro ds g t hNext
    rw [Heap.next_replay, hNext]
  · rfl

/- Only commits change what lies behind the values. -/
theorem Workspace.store_step
    {K V δ ω σ : Type} [Ord K] [Std.TransOrd K]
    [Delta δ ω] [Holding V σ δ]
    (w : Workspace K V δ ω σ)
    {s : Step K V δ}
    (hOther :
      ∀ (entry container : String)
        (version : Option Version),
        s ≠ .commit entry container version) :
    (w.step s).workspace.store = w.store := by
  cases s with
  | container name limit => rfl
  | callContainer name call =>
      simp only [step, callContainer]
      split <;> rfl
  | plain name origin version lifespan maxIdle => rfl
  | alone name key value config => rfl
  | wrap name key value config below =>
      simp only [step, wrap]
      split <;> rfl
  | copy name source =>
      simp only [step, copy]
      split <;> rfl
  | callEntry name call =>
      simp only [step, callEntry]
      split <;> rfl
  | commit entry container version =>
      exact absurd rfl (hOther entry container version)

namespace SharedWorkspace

variable {K κ ν : Type} [Ord K] [Ord κ]
variable [Std.TransOrd K] [Std.TransOrd κ]

/- The calls that a commit makes on the map of a handle. -/
def callsOfCommit
    (w : SharedWorkspace K κ ν)
    (h : MapHandle κ ν)
    (entry container : String)
    (version : Option Version) :
    List (TrackedMap.Call κ ν) :=
  match w.base.entry? entry, w.base.container? container with
  | some e, some c =>
      h.callsIn (e.notes c w.base.store version)
  | _, _ => []

/- The calls that a step makes on the map of a handle. -/
def callsOn
    (w : SharedWorkspace K κ ν)
    (h : MapHandle κ ν) :
    Step K κ ν → List (TrackedMap.Call κ ν)
| .base (.commit entry container version) =>
    w.callsOfCommit h entry container version
| .call name c => if w.handle? name = some h then [c] else []
| _ => []

/- The calls that a run makes on the map of a handle. -/
def callsIn
    (w : SharedWorkspace K κ ν)
    (h : MapHandle κ ν) :
    List (Step K κ ν) → List (TrackedMap.Call κ ν)
| [] => []
| s :: steps =>
    w.callsOn h s ++ (w.step s).workspace.callsIn h steps

/- A named map receives its call, and no other map does. -/
theorem store_call
    (w : SharedWorkspace K κ ν)
    (name : String)
    (c : TrackedMap.Call κ ν) :
    w.base.store.Called (fun h => w.callsOn h (.call name c))
      (w.call name c).workspace.base.store := by
  unfold SharedWorkspace.call
  cases hName : w.handle? name with
  | none =>
      exact .unchanged rfl (fun h => by simp [callsOn, hName])
  | some g =>
      refine .called rfl (fun h => ?_)
      have hRead :=
        w.base.store.read_write g h
          ((w.base.store.read g).call c).2
      refine hRead.trans ?_
      by_cases hEq : h = g
      · simp [callsOn, hName, hEq, TrackedMap.run]
      · have hNe : ¬ g = h := fun hSame => hEq hSame.symm
        simp [callsOn, hName, hEq, hNe, TrackedMap.run]

theorem store_commit
    (w : SharedWorkspace K κ ν)
    (entry container : String)
    (version : Option Version) :
    w.base.store.Called
      (fun h => w.callsOfCommit h entry container version)
      (w.base.commit entry container
        version).workspace.store := by
  unfold Workspace.commit callsOfCommit
  cases w.base.entry? entry with
  | none => exact .unchanged rfl (fun _ => rfl)
  | some e =>
      cases w.base.container? container with
      | none => exact .unchanged rfl (fun _ => rfl)
      | some c =>
          exact
            .called (e.next_commit c w.base.store version)
              (fun h =>
                h.read_commit e c w.base.store version)

/- Every step does to the heap what it calls there. -/
theorem store_step
    (w : SharedWorkspace K κ ν)
    (s : Step K κ ν) :
    w.base.store.Called (fun h => w.callsOn h s)
      (w.step s).workspace.base.store := by
  cases s with
  | base s =>
      cases s with
      | commit entry container version =>
          exact w.store_commit entry container version
      | _ =>
          exact
            .unchanged (w.base.store_step (by simp))
              (fun _ => rfl)
  | beginWrite entry container key opener =>
      simp only [step, beginWrite]
      cases w.base.container? container with
      | none => exact .unchanged rfl (fun _ => rfl)
      | some c =>
          simp only [Opener.beginWrite]
          cases c.get? key with
          | none => exact .made default rfl (fun _ => rfl)
          | some h => exact .unchanged rfl (fun _ => rfl)
  | share name map => exact .made map rfl (fun _ => rfl)
  | copy name source =>
      simp only [step]
      cases w.handle? source with
      | none => exact .unchanged rfl (fun _ => rfl)
      | some h => exact .unchanged rfl (fun _ => rfl)
  | detach name source =>
      simp only [step, detach]
      cases w.handle? source with
      | none => exact .unchanged rfl (fun _ => rfl)
      | some h => exact .made _ rfl (fun _ => rfl)
  | grab name source =>
      simp only [step]
      cases w.find? source with
      | none => exact .unchanged rfl (fun _ => rfl)
      | some h => exact .unchanged rfl (fun _ => rfl)
  | call name c => exact w.store_call name c

/- Names of maps are not given away again. -/
theorem next_step
    (w : SharedWorkspace K κ ν)
    (s : Step K κ ν) :
    w.base.store.next ≤
      (w.step s).workspace.base.store.next := by
  cases w.store_step s with
  | made m hStore hNone =>
      rw [hStore, Heap.next_alloc]
      exact Nat.le_succ _
  | called hNext hRead => exact Nat.le_of_eq hNext.symm

/- A step does to a map what it calls there. -/
theorem read_step
    {w : SharedWorkspace K κ ν}
    {h : MapHandle κ ν}
    (hNamed : h.id < w.base.store.next)
    (s : Step K κ ν) :
    (w.step s).workspace.read h =
      ((w.read h).run (w.callsOn h s)).2 := by
  cases w.store_step s with
  | made m hStore hNone =>
      rw [hNone h]
      unfold read
      rw [hStore]
      exact
        w.base.store.read_alloc_of_ne m (Nat.ne_of_lt hNamed)
  | called hNext hRead => exact hRead h

/- So does a run. -/
theorem read_run
    {w : SharedWorkspace K κ ν}
    {h : MapHandle κ ν}
    (hNamed : h.id < w.base.store.next)
    (steps : List (Step K κ ν)) :
    (w.run steps).read h =
      ((w.read h).run (w.callsIn h steps)).2 := by
  induction steps generalizing w with
  | nil => rfl
  | cons s steps ih =>
      have hStill :
          h.id < (w.step s).workspace.base.store.next :=
        Nat.lt_of_lt_of_le hNamed (w.next_step s)
      have hRest := ih hStill
      rw [read_step hNamed] at hRest
      rw [callsIn, TrackedMap.run_append]
      exact hRest

end SharedWorkspace

end OverlayCache
