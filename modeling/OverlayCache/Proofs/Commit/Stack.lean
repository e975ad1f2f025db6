import OverlayCache.Proofs.Commit.Publication
import OverlayCache.Proofs.Commit.Refused

/-
  Commits of stacks in which every level holds one handle.

  The handle is published before any delta is replayed, and
  then each layer replays what is pending in it.  Since all
  of them replay into the same aggregate, that aggregate takes
  in the deltas of the innermost layer first and those of the
  outermost layer last, whichever levels had been prepared.

  Key definitions include:
    * `Entry.pendingLevels`
    * `Entry.pendingDeltas`

  The main statements are:
    * `Entry.read_commit_of_shared`
    * `Entry.commit_of_shared_stack`
-/

------------------------------------------------------------
-- Pending Deltas Of Stacks
------------------------------------------------------------

namespace OverlayCache

namespace Entry

variable {K V δ ω : Type}

/- What is pending in each layer, from the innermost one up. -/
def pendingLevels : Entry K V δ ω → List (List δ)
| .plain _ => []
| .alone l => [l.pending]
| .stacked l below => below.pendingLevels ++ [l.pending]

/- What is pending anywhere, in the order of replay. -/
def pendingDeltas (e : Entry K V δ ω) : List δ :=
  e.pendingLevels.flatten

end Entry

end OverlayCache

------------------------------------------------------------
-- Replays Into One Aggregate
------------------------------------------------------------

namespace OverlayCache

namespace Entry

variable {γ K α δ ω : Type}

/- What is pending anywhere is pending for a shared handle. -/
theorem pendingFor_of_shared
    {e : Entry K (Handle α) δ ω}
    {h : Handle α}
    (hShared : ∀ v ∈ e.layerValues, v = some h)
    (g : Handle α) :
    e.pendingFor g = if g = h then e.pendingLevels else [] := by
  induction e with
  | plain p => simp [pendingFor, pendingLevels]
  | alone l =>
      have hValue : l.value = some h :=
        hShared l.value (by simp [layerValues])
      simp [pendingFor, pendingLevels, Layer.pendingFor,
        hValue, eq_comm]
  | stacked l below ih =>
      simp only [layerValues, List.mem_cons,
        forall_eq_or_imp] at hShared
      rcases hShared with ⟨hValue, hBelow⟩
      rw [pendingFor, ih hBelow, Layer.pendingFor, hValue]
      by_cases hEq : g = h
      · simp [hEq, pendingLevels]
      · have hNe : ¬ h = g := fun hSame => hEq hSame.symm
        simp [hEq, hNe]

/-
  Layers that hold the same handle replay into its aggregate,
  one after another, and into no other.
-/
theorem read_commit_of_shared
    [Repository γ K (Handle α)]
    [Delta δ ω] [Inhabited α] [Aggregate α δ]
    {e : Entry K (Handle α) δ ω}
    {h : Handle α}
    (hShared : ∀ v ∈ e.layerValues, v = some h)
    {c : γ}
    {s : Heap α}
    {version : Option Version}
    (hOk : (e.commit c s version).result = .ok ())
    (g : Handle α) :
    (e.commit c s version).store.read g =
      if g = h then
        Aggregate.absorbAll e.pendingLevels (s.read h)
      else
        s.read g := by
  rw [(read_commit hOk).2 g, pendingFor_of_shared hShared]
  by_cases hEq : g = h
  · simp [hEq]
  · simp [hEq]

end Entry

end OverlayCache

------------------------------------------------------------
-- Commits Of Shared Stacks
------------------------------------------------------------

namespace OverlayCache

namespace Entry

variable {γ K κ ν : Type} [Ord κ] [Std.TransOrd κ]

/-
  A commit that goes through leaves the handle of the stack in
  the repository, under the key of the plain entry and at the
  version that was asked for or else at that of the plain
  entry, and leaves the other keys alone.  The map that the
  handle names folds all that was pending, layer by layer from
  the innermost one up, and forgets its own changes if there
  was anything to fold.  No other map changes.
-/
theorem commit_of_shared_stack
    [ReadableRepository γ K (Handle (TrackedMap κ ν))]
    {e : Entry K (Handle (TrackedMap κ ν))
      (MapDelta κ ν) (TrackedMap κ ν)}
    {p : Plain K (Handle (TrackedMap κ ν))}
    {h : Handle (TrackedMap κ ν)}
    (hBottom : e.bottom = .plain p)
    (hValid : p.flags.valid = true)
    (hKept : p.flags.removed = false)
    (hValue : p.value = some h)
    (hShared : ∀ v ∈ e.layerValues, v = some h)
    (hTouched : e.isTouched = true)
    (c : γ)
    (s : Heap (TrackedMap κ ν))
    (version : Option Version)
    (hOk : (e.commit c s version).result = .ok ()) :
    let o := e.commit c s version
    ReadableRepository.stored? o.container p.key =
        some ⟨h, version.or p.version⟩ ∧
      (∀ other : K,
        other ≠ p.key →
          ReadableRepository.stored? o.container other =
            ReadableRepository.stored? c other) ∧
      (o.store.read h).entries =
        ((s.read h).foldDeltas e.pendingDeltas).entries ∧
      (o.store.read h).changes =
        (if e.pendingDeltas.isEmpty then
          (s.read h).changes
        else
          []) ∧
      ∀ g : Handle (TrackedMap κ ν),
        g ≠ h → o.store.read g = s.read g := by
  intro o
  have hOffer : e.offer? = some h := by
    rw [offer?_of_bottom hBottom]
    simp [hTouched, hValid, hKept, hValue]
  have hStored := stored?_commit hBottom hOffer hOk
  have hRead :
      o.store.read h =
        Aggregate.absorbAll e.pendingLevels (s.read h) := by
    rw [read_commit_of_shared hShared hOk, if_pos rfl]
  refine ⟨hStored.1, hStored.2, ?_, ?_, ?_⟩
  · rw [hRead]
    exact TrackedMap.entries_absorbAll _ _
  · rw [hRead]
    exact TrackedMap.changes_absorbAll _ _
  · intro g hNe
    rw [read_commit_of_shared hShared hOk, if_neg hNe]

/-
  Two layers over a plain entry with a version.  A delta was
  appended to the inner layer before it was wrapped, and
  another one to the outer layer since.  Nothing has prepared
  the plain entry.
-/
def sharedStack :
    Entry Nat (Handle (TrackedMap Nat Nat))
      (MapDelta Nat Nat) (TrackedMap Nat Nat) :=
  let plain : Plain Nat (Handle (TrackedMap Nat Nat)) :=
    { Plain.existing 1 (some ⟨0⟩) with version := some ⟨3⟩ }
  let inner :=
    ((Entry.stacked (.fresh 1 (some ⟨0⟩) {})
      (.plain plain)).call (.append ⟨[.put 1 10]⟩)).entry
  ((Entry.stacked (.fresh 1 (some ⟨0⟩) {}) inner).call
    (.append ⟨[.remove 2, .put 1 11]⟩)).entry

/-
  The map had a mapping of its own that was still recorded as
  a change, and another key was stored before.
-/
theorem commit_of_two_layers :
    let s : Heap (TrackedMap Nat Nat) :=
      (Heap.empty.alloc (TrackedMap.empty.put 2 20).2).2
    let other : Stored (Handle (TrackedMap Nat Nat)) :=
      ⟨⟨9⟩, none⟩
    let c : Container Nat (Handle (TrackedMap Nat Nat)) :=
      { entries := Std.ExtTreeMap.empty.insert 5 other }
    let o := sharedStack.commit c s none
    o.result = .ok () ∧
      o.container.stored? 1 = some ⟨⟨0⟩, some ⟨3⟩⟩ ∧
      o.container.stored? 5 = some other ∧
      (o.store.read ⟨0⟩).toList = [(1, 11)] ∧
      (o.store.read ⟨0⟩).changes = [] := by
  intro s other c o
  have hOk : o.result = .ok () := rfl
  rcases commit_of_shared_stack (e := sharedStack) rfl rfl rfl rfl
      (by decide) rfl c s none hOk with
    ⟨hStored, hOthers, hEntries, hChanges, _⟩
  refine ⟨hOk, hStored, ?_, ?_, ?_⟩
  · have hOther : c.stored? 5 = some other := by
      decide
    exact (hOthers 5 (by decide)).trans hOther
  · have hFolded :
        ((s.read ⟨0⟩).foldDeltas
          sharedStack.pendingDeltas).toList = [(1, 11)] := by
      decide
    exact (congrArg (fun es => es.toList) hEntries).trans hFolded
  · exact hChanges

end Entry

end OverlayCache
