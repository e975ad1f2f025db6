import Mathlib.Data.List.DropRight
import OverlayCache.Proofs.Shared.Calls

/-
  Change logs of shared maps.

  The commit of an entry replays deltas into a map that are
  not recorded there.  It also makes the map forget what was
  recorded, whoever wrote it.  Every replay is followed by
  this settlement in the same commit, and a commit that
  replays nothing or is refused does not settle either.  So
  the change log of a map always tells how the map differs
  from what it was when it was settled last.

  Key definitions include:
    * `TrackedMap.Call.IsLocal`
    * `TrackedMap.Call.untilSettled`
    * `TrackedMap.Call.sinceSettled`
    * `TrackedMap.Call.AllRecorded`
    * `SharedWorkspace.Spares`

  The main statements are:
    * `TrackedMap.changes_of_recorded`
    * `TrackedMap.replay_changes_of_recorded`
    * `SharedWorkspace.log_reproduces_since_settled`
-/

------------------------------------------------------------
-- Calls Since A Map Was Settled
------------------------------------------------------------

namespace OverlayCache

namespace TrackedMap

variable {κ ν : Type}

namespace Call

/- The calls that neither apply a delta nor drain the map. -/
def IsLocal : Call κ ν → Prop
| .perform _ => True
| .settle => True
| _ => False

/- Whether a call settles the map. -/
def isSettle : Call κ ν → Bool
| .settle => true
| _ => false

/- The calls up to the last one that settles the map. -/
def untilSettled (cs : List (Call κ ν)) : List (Call κ ν) :=
  cs.rdropWhile (fun c => !c.isSettle)

/- The calls after the last one that settles the map. -/
def sinceSettled (cs : List (Call κ ν)) : List (Call κ ν) :=
  cs.rtakeWhile (fun c => !c.isSettle)

/- Whatever came since the map was settled was recorded. -/
def AllRecorded (cs : List (Call κ ν)) : Prop :=
  ∀ c ∈ sinceSettled cs, c.isDirect = true

theorem untilSettled_append_sinceSettled
    (cs : List (Call κ ν)) :
    untilSettled cs ++ sinceSettled cs = cs :=
  List.rdropWhile_append_rtakeWhile

theorem sinceSettled_concat_settle
    (cs : List (Call κ ν)) :
    sinceSettled (cs ++ [.settle]) = [] := by
  unfold sinceSettled
  exact List.rtakeWhile_concat_neg _ _ _ (by simp [isSettle])

theorem mem_sinceSettled_append
    {c : Call κ ν}
    {as bs : List (Call κ ν)}
    (hMem : c ∈ sinceSettled (as ++ bs)) :
    c ∈ sinceSettled as ∨ c ∈ sinceSettled bs := by
  simp only [sinceSettled, List.rtakeWhile, List.mem_reverse,
    List.reverse_append, List.takeWhile_append] at hMem ⊢
  split at hMem
  · next hAll =>
      have hSame :=
        (List.takeWhile_prefix
          (fun c : Call κ ν => !c.isSettle)).eq_of_length hAll
      rw [hSame]
      rcases List.mem_append.mp hMem with hBs | hAs
      · exact Or.inr hBs
      · exact Or.inl hAs
  · exact Or.inr hMem

theorem AllRecorded.nil :
    AllRecorded ([] : List (Call κ ν)) :=
  fun c hMem => by cases hMem

theorem AllRecorded.of_local
    {c : Call κ ν}
    (hLocal : c.IsLocal) :
    AllRecorded [c] := by
  intro d hMem
  cases c with
  | perform op =>
      have hOnly : d ∈ [Call.perform op] :=
        (List.rtakeWhile_suffix _ _).subset hMem
      rw [List.mem_singleton.mp hOnly]
      rfl
  | apply delta => exact hLocal.elim
  | drain => exact hLocal.elim
  | settle => cases hMem

theorem AllRecorded.append
    {as bs : List (Call κ ν)}
    (hFirst : AllRecorded as)
    (hSecond : AllRecorded bs) :
    AllRecorded (as ++ bs) := by
  intro c hMem
  rcases mem_sinceSettled_append hMem with hAs | hBs
  · exact hFirst c hAs
  · exact hSecond c hBs

end Call

variable [Ord κ] [Std.TransOrd κ]

/- A map is clean when it was just settled. -/
theorem changes_run_untilSettled
    {m : TrackedMap κ ν}
    (hClean : m.changes = [])
    (cs : List (Call κ ν)) :
    (m.run (Call.untilSettled cs)).2.changes = [] := by
  induction cs using List.reverseRecOn with
  | nil => exact hClean
  | append_singleton cs c ih =>
      unfold Call.untilSettled at ih ⊢
      rw [List.rdropWhile_concat]
      cases c with
      | settle =>
          rw [if_neg (by simp [Call.isSettle]), run_append]
          rfl
      | _ => simpa [Call.isSettle] using ih

/- A run goes on from where the map was settled last. -/
theorem run_sinceSettled
    (m : TrackedMap κ ν)
    (cs : List (Call κ ν)) :
    (m.run cs).2 =
      ((m.run (Call.untilSettled cs)).2.run
        (Call.sinceSettled cs)).2 := by
  rw [← run_append, Call.untilSettled_append_sinceSettled]

/- The recorded changes are the mutations since then. -/
theorem changes_of_recorded
    {m : TrackedMap κ ν}
    (hClean : m.changes = [])
    {cs : List (Call κ ν)}
    (hRecorded : Call.AllRecorded cs) :
    (m.run cs).2.changes =
      (Call.sinceSettled cs).filterMap Call.recorded? := by
  have hChanges :
      ∀ c ∈ Call.sinceSettled cs, c.IsChange := by
    intro c hMem
    have hDirect := hRecorded c hMem
    cases c with
    | perform op => trivial
    | _ => cases hDirect
  rw [run_sinceSettled, changes_run _ hChanges,
    changes_run_untilSettled hClean, List.nil_append]

/-
  Replayed onto the map as it was when it was settled last,
  the recorded changes lead to what it is now.
-/
theorem replay_changes_of_recorded
    {m : TrackedMap κ ν}
    (hClean : m.changes = [])
    {cs : List (Call κ ν)}
    (hRecorded : Call.AllRecorded cs) :
    let settled := (m.run (Call.untilSettled cs)).2
    let now := (m.run cs).2
    (replayDelta ⟨now.changes⟩ settled).entries =
      now.entries := by
  intro settled now
  have hAll :
      (Call.sinceSettled cs).filter Call.isDirect =
        Call.sinceSettled cs :=
    List.filter_eq_self.mpr hRecorded
  have hDirect :=
    settled.entries_run_direct (Call.sinceSettled cs)
  rw [hAll, ← m.run_sinceSettled cs,
    ← changes_of_recorded hClean hRecorded] at hDirect
  exact hDirect.symm

end TrackedMap

end OverlayCache

------------------------------------------------------------
-- Shared Maps Among Commits
------------------------------------------------------------

namespace OverlayCache

/- A commit settles each map that it replayed deltas into. -/
theorem MapHandle.sinceSettled_notes
    {γ K κ ν : Type} [Ord κ] [Std.TransOrd κ]
    [Repository γ K (MapHandle κ ν)]
    (h : MapHandle κ ν)
    (e : Entry K (MapHandle κ ν) (MapDelta κ ν)
      (TrackedMap κ ν))
    (c : γ)
    (s : Heap (TrackedMap κ ν))
    (version : Option Version) :
    TrackedMap.Call.sinceSettled
      (h.callsIn (e.notes c s version)) = [] := by
  let P (t : Heap (TrackedMap κ ν) ×
      List (MapHandle κ ν × Told (MapDelta κ ν))) : Prop :=
    TrackedMap.Call.sinceSettled (h.callsIn t.2) = []
  refine Entry.notes_keep (P := P) ?_ rfl e c version
  intro ds g t hSoFar
  simp only [P] at hSoFar ⊢
  rw [Told.replay_handle_noted, callsIn_append,
    callsIn_telling]
  by_cases hOther : g = h
  · rw [if_pos hOther]
    by_cases hNil : ds = []
    · simpa [Told.telling, hNil] using hSoFar
    · simp only [Told.telling, List.isEmpty_iff, hNil,
        if_false, List.map_append, ← List.append_assoc]
      exact TrackedMap.Call.sinceSettled_concat_settle _
  · simpa [hOther] using hSoFar

namespace SharedWorkspace

variable {K κ ν : Type} [Ord K] [Ord κ]
variable [Std.TransOrd K] [Std.TransOrd κ]

/-
  A step spares the log of a handle when it applies no delta
  and drains nothing through a name of the handle.
-/
def SparesOnce
    (w : SharedWorkspace K κ ν)
    (h : MapHandle κ ν) : Step K κ ν → Prop
| .call name c => w.handle? name = some h → c.IsLocal
| _ => True

/- Every step of a run spares the log. -/
def Spares
    (w : SharedWorkspace K κ ν)
    (h : MapHandle κ ν) : List (Step K κ ν) → Prop
| [] => True
| s :: steps =>
    w.SparesOnce h s ∧ (w.step s).workspace.Spares h steps

theorem allRecorded_callsOn
    {w : SharedWorkspace K κ ν}
    {h : MapHandle κ ν}
    {s : Step K κ ν}
    (hSpared : w.SparesOnce h s) :
    TrackedMap.Call.AllRecorded (w.callsOn h s) := by
  cases s with
  | base s =>
      cases s with
      | commit entry container version =>
          simp only [callsOn, callsOfCommit]
          cases w.base.entry? entry with
          | none => exact .nil
          | some e =>
              cases w.base.container? container with
              | none => exact .nil
              | some c =>
                  intro d hMem
                  simp only [h.sinceSettled_notes] at hMem
                  cases hMem
      | _ => exact .nil
  | call name c =>
      simp only [callsOn]
      by_cases hName : w.handle? name = some h
      · rw [if_pos hName]
        exact .of_local (hSpared hName)
      · rw [if_neg hName]
        exact .nil
  | _ => exact .nil

theorem allRecorded_callsIn
    {w : SharedWorkspace K κ ν}
    {h : MapHandle κ ν}
    {steps : List (Step K κ ν)}
    (hSpared : w.Spares h steps) :
    TrackedMap.Call.AllRecorded (w.callsIn h steps) := by
  induction steps generalizing w with
  | nil => exact .nil
  | cons s steps ih =>
      exact
        (allRecorded_callsOn hSpared.1).append
          (ih hSpared.2)

/-
  A map has no recorded changes at first.  Its clients mutate
  and settle it directly through any names of its handle, and
  entries that hold the handle are written to, committed and
  rolled back, in any order and number.  At every point the
  recorded changes, replayed onto the map as it was when it
  was settled last, lead to the mappings it has now.
-/
theorem log_reproduces_since_settled
    {w : SharedWorkspace K κ ν}
    {h : MapHandle κ ν}
    (hNamed : h.id < w.base.store.next)
    (hClean : (w.read h).changes = [])
    {steps : List (Step K κ ν)}
    (hSpared : w.Spares h steps) :
    let calls := w.callsIn h steps
    let settled :=
      ((w.read h).run
        (TrackedMap.Call.untilSettled calls)).2
    let now := (w.run steps).read h
    now = ((w.read h).run calls).2 ∧
      (TrackedMap.replayDelta ⟨now.changes⟩ settled).entries =
        now.entries := by
  intro calls settled now
  have hRead : now = ((w.read h).run calls).2 :=
    read_run hNamed steps
  refine ⟨hRead, ?_⟩
  rw [hRead]
  exact
    TrackedMap.replay_changes_of_recorded hClean
      (allRecorded_callsIn hSpared)

/- A container that holds a shared map, and a closed one. -/
def sharedStart : SharedWorkspace Nat Nat Nat :=
  run {}
    [.share "m" (.ofList [(1, 10)]),
      .base (.container "c" none),
      .base (.callContainer "c" (.put 7 ⟨0⟩ none)),
      .base (.container "closed" none),
      .base (.callContainer "closed" .close)]

/-
  Two names of the map are written through while an entry is
  open.  Its first commit is refused, and its second one
  settles the map.  Another entry is committed unwritten.
-/
def sharedSteps : List (Step Nat Nat Nat) :=
  [.call "m" (.perform (.put 2 20)),
    .copy "copy" "m",
    .beginWrite "e" "c" 7 {},
    .base (.callEntry "e" (.append ⟨[.put 3 30]⟩)),
    .base (.commit "e" "closed" none),
    .call "copy" (.perform (.remove 1)),
    .base (.commit "e" "c" none),
    .call "copy" (.perform (.put 3 31)),
    .beginWrite "f" "c" 7 {},
    .base (.commit "f" "c" none)]

theorem log_of_sharedSteps :
    let h : MapHandle Nat Nat := ⟨0⟩
    let calls := sharedStart.callsIn h sharedSteps
    let settled :=
      ((sharedStart.read h).run
        (TrackedMap.Call.untilSettled calls)).2
    let now := (sharedStart.run sharedSteps).read h
    now.changes = [.put 3 31] ∧
      settled.toList = [(2, 20), (3, 30)] ∧
      (TrackedMap.replayDelta ⟨now.changes⟩ settled).entries =
        now.entries := by
  intro h calls settled now
  have hSpared : sharedStart.Spares h sharedSteps := by
    simp [Spares, sharedSteps, SparesOnce,
      TrackedMap.Call.IsLocal]
  refine ⟨by decide +kernel, by decide +kernel, ?_⟩
  exact
    (log_reproduces_since_settled (w := sharedStart)
      (by decide +kernel) (by decide +kernel) hSpared).2

end SharedWorkspace

end OverlayCache
