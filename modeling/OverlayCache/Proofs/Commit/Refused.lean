import OverlayCache.Proofs.Absorb
import OverlayCache.Proofs.Commit.Alike

/-
  Commits that a repository refuses.

  A refusal stops the second pass of a commit at the bottom of
  the stack, before any delta is replayed.  What the first pass
  did is a preparation, so the entry stays alike.  A commit
  that goes through has each aggregate take in what is pending
  in the layers that hold it, once and in order, and nothing
  that was tried before shows in it.

  Key definitions include:
    * `Entry.contents`
    * `Entry.layerValues`
    * `Entry.absorbedValues`
    * `Entry.pendingFor`
    * `Entry.Retried`

  The main statements are:
    * `Entry.settle_of_refused`
    * `Entry.Alike.commit_of_ok`
    * `Entry.layerValues_commit`
    * `Entry.read_commit`
    * `Entry.refused_commits_lose_nothing`
-/

------------------------------------------------------------
-- What Entries Hold
------------------------------------------------------------

namespace OverlayCache

/- What one level holds.  A plain entry has no working copy. -/
structure Content (V δ ω : Type) where
  value : Option V
  pending : List δ
  work : Option ω

variable {K V δ ω σ : Type}

/- What is pending in a layer that holds a value. -/
def Layer.pendingFor
    [DecidableEq V]
    (v : V)
    (l : Layer K V δ ω) : List (List δ) :=
  if l.value = some v then [l.pending] else []

namespace Entry

/- What the levels hold, from the topmost one down. -/
def contents : Entry K V δ ω → List (Content V δ ω)
| .plain p => [⟨p.value, [], none⟩]
| .alone l => [⟨l.value, l.pending, some l.work⟩]
| .stacked l below =>
    ⟨l.value, l.pending, some l.work⟩ :: below.contents

/- The live values of the layers, from the topmost one down. -/
def layerValues : Entry K V δ ω → List (Option V)
| .plain _ => []
| .alone l => [l.value]
| .stacked l below => l.value :: below.layerValues

/-
  The values of layers that hold aggregates by themselves, once
  each of these has taken in what is pending in its layer.
-/
def absorbedValues
    [Aggregate V δ] : Entry K V δ ω → List (Option V)
| .plain _ => []
| .alone l => [l.value.map (Aggregate.absorb l.pending)]
| .stacked l below =>
    l.value.map (Aggregate.absorb l.pending) ::
      below.absorbedValues

/-
  What is pending in the layers that hold a value, from the
  innermost one up.
-/
def pendingFor
    [DecidableEq V]
    (v : V) : Entry K V δ ω → List (List δ)
| .plain _ => []
| .alone l => l.pendingFor v
| .stacked l below => below.pendingFor v ++ l.pendingFor v

namespace Alike

variable {e f : Entry K V δ ω}

theorem contents
    (h : e.Alike f) :
    e.contents = f.contents := by
  induction h with
  | plain h => simp [Entry.contents, h.value]
  | alone h =>
      simp [Entry.contents, h.value, h.pending, h.work]
  | stacked h hBelow ih =>
      simp [Entry.contents, h.value, h.pending, h.work, ih]

theorem layerValues
    (h : e.Alike f) :
    e.layerValues = f.layerValues := by
  induction h with
  | plain h => rfl
  | alone h => simp [Entry.layerValues, h.value]
  | stacked h hBelow ih =>
      simp [Entry.layerValues, h.value, ih]

theorem absorbedValues
    [Aggregate V δ]
    (h : e.Alike f) :
    e.absorbedValues = f.absorbedValues := by
  induction h with
  | plain h => rfl
  | alone h =>
      simp [Entry.absorbedValues, h.value, h.pending]
  | stacked h hBelow ih =>
      simp [Entry.absorbedValues, h.value, h.pending, ih]

theorem pendingFor
    [DecidableEq V]
    (h : e.Alike f)
    (v : V) :
    e.pendingFor v = f.pendingFor v := by
  induction h with
  | plain h => rfl
  | alone h =>
      simp [Entry.pendingFor, Layer.pendingFor, h.value,
        h.pending]
  | stacked h hBelow ih =>
      simp [Entry.pendingFor, Layer.pendingFor, h.value,
        h.pending, ih]

end Alike

end Entry

end OverlayCache

------------------------------------------------------------
-- Refused Commits
------------------------------------------------------------

namespace OverlayCache

variable {γ K V δ ω σ : Type}
variable [Repository γ K V]

/- A refusal leaves a plain entry alike. -/
theorem Plain.commit_of_refused
    {p : Plain K V}
    {c : γ}
    {version : Option Version}
    {refusal : Refusal}
    (hRefused :
      (p.commit (δ := δ) c version).result =
        .error refusal) :
    (p.commit (δ := δ) c version).container = c ∧
      (p.commit (δ := δ) c version).entry.Alike p := by
  unfold Plain.commit at hRefused ⊢
  by_cases hChanged : p.flags.changed = true
  · simp only [hChanged, if_true] at hRefused ⊢
    split at hRefused
    · exact ⟨rfl, rfl, .refl p.flags⟩
    · cases hRefused
  · simp only [hChanged] at hRefused
    cases hRefused

variable [Delta δ ω] [Holding V σ δ]

namespace Entry

/- A refusal stops before any delta is replayed. -/
theorem settle_of_refused
    {e : Entry K V δ ω}
    {c : γ}
    {s : σ}
    {version : Option Version}
    {refusal : Refusal}
    (hRefused :
      (e.settle version c s).result = .error refusal) :
    (e.settle version c s).container = c ∧
      (e.settle version c s).store = s ∧
      (e.settle version c s).entry.Alike e := by
  induction e with
  | plain p =>
      rcases Plain.commit_of_refused (δ := δ) hRefused with
        ⟨hSame, hAlike⟩
      exact ⟨hSame, rfl, .plain hAlike⟩
  | alone l => cases hRefused
  | stacked l below ih =>
      simp only [settle] at hRefused ⊢
      cases hBelow : (below.settle version c s).result with
      | error r =>
          simp only [hBelow] at hRefused
          rcases ih (hBelow.trans hRefused) with
            ⟨hSame, hStore, hAlike⟩
          exact ⟨hSame, hStore, .stacked (.refl l) hAlike⟩
      | ok u =>
          simp only [hBelow] at hRefused
          cases hRefused

/- A refused commit leaves alone all but the preparation. -/
theorem commit_of_refused
    {e : Entry K V δ ω}
    {c : γ}
    {s : σ}
    {version : Option Version}
    {refusal : Refusal}
    (hRefused :
      (e.commit c s version).result = .error refusal) :
    (e.commit c s version).container = c ∧
      (e.commit c s version).store = s ∧
      (e.commit c s version).entry.Alike e := by
  rcases settle_of_refused (e := e.ready.1) hRefused with
    ⟨hSame, hStore, hAlike⟩
  exact ⟨hSame, hStore, hAlike.trans e.alike_ready⟩

end Entry

end OverlayCache

------------------------------------------------------------
-- Accepted Commits
------------------------------------------------------------

namespace OverlayCache

variable {γ K V δ ω σ : Type}

/- Alike layers replay alike. -/
theorem Layer.Alike.replay
    [Delta δ ω] [Holding V σ δ]
    {l m : Layer K V δ ω}
    (h : l.Alike m)
    (s : σ) :
    (l.replay s).layer.value = (m.replay s).layer.value ∧
      (l.replay s).store = (m.replay s).store := by
  have hValue := h.value
  unfold Layer.replay
  rw [← hValue, ← h.pending]
  cases hHeld : l.value with
  | none => exact ⟨hValue, rfl⟩
  | some v => exact ⟨rfl, rfl⟩

/- A layer that holds an aggregate has it absorb the deltas. -/
theorem Layer.value_replay
    {α : Type} [Delta δ ω] [Aggregate α δ]
    (l : Layer K α δ ω)
    (u : Unit) :
    (l.replay u).layer.value =
      l.value.map (Aggregate.absorb l.pending) := by
  unfold Layer.replay
  cases hHeld : l.value with
  | none => exact hHeld
  | some a =>
      exact
        congrArg some
          (congrArg Prod.fst
            (Holding.replay_value l.pending a u))

/-
  A layer that holds a handle keeps it, and the aggregate that
  the handle names absorbs the deltas.
-/
theorem Layer.read_replay
    {α : Type} [Delta δ ω] [Inhabited α] [Aggregate α δ]
    (l : Layer K (Handle α) δ ω)
    (s : Heap α) :
    (l.replay s).layer.value = l.value ∧
      ∀ g : Handle α,
        (l.replay s).store.read g =
          Aggregate.absorbAll (l.pendingFor g) (s.read g) := by
  unfold Layer.replay Layer.pendingFor
  cases hHeld : l.value with
  | none => exact ⟨hHeld, fun _ => rfl⟩
  | some h =>
      refine
        ⟨congrArg some
            (Holding.replay_handle_fst l.pending h s),
          ?_⟩
      intro g
      have hRead := s.read_replay l.pending h g
      by_cases hEq : g = h
      · subst hEq
        simpa [Aggregate.absorbAll] using hRead
      · have hNe : ¬ h = g := fun hSame => hEq hSame.symm
        simpa [hEq, hNe] using hRead

namespace Entry

variable [Repository γ K V] [Delta δ ω] [Holding V σ δ]

/- A layer is replayed after all that lies below it. -/
theorem settle_stacked_of_ok
    {l : Layer K V δ ω}
    {below : Entry K V δ ω}
    {c : γ}
    {s : σ}
    {version : Option Version}
    (hOk :
      ((stacked l below).settle version c s).result =
        .ok ()) :
    let o := (stacked l below).settle version c s
    let b := below.settle version c s
    b.result = .ok () ∧
      o.entry = .stacked (l.replay b.store).layer b.entry ∧
      o.store = (l.replay b.store).store := by
  intro o b
  simp only [o, settle] at hOk ⊢
  cases hBelow : (below.settle version c s).result with
  | error refusal =>
      simp only [hBelow] at hOk
      cases hOk
  | ok u => exact ⟨rfl, rfl, rfl⟩

/- Alike entries whose commits go through leave the same. -/
theorem Alike.settle_of_ok
    {e f : Entry K V δ ω}
    (h : e.Alike f)
    {c c' : γ}
    {s : σ}
    {version version' : Option Version}
    (hOk : (e.settle version c s).result = .ok ())
    (hOk' : (f.settle version' c' s).result = .ok ()) :
    (e.settle version c s).store =
        (f.settle version' c' s).store ∧
      (e.settle version c s).entry.layerValues =
        (f.settle version' c' s).entry.layerValues := by
  induction h with
  | plain h => exact ⟨rfl, rfl⟩
  | alone h =>
      rcases h.replay s with ⟨hValue, hStore⟩
      exact ⟨hStore, congrArg (fun v => [v]) hValue⟩
  | stacked h hBelow ih =>
      rcases settle_stacked_of_ok hOk with
        ⟨hInner, hEntry, hStore⟩
      rcases settle_stacked_of_ok hOk' with
        ⟨hInner', hEntry', hStore'⟩
      rcases ih hInner hInner' with ⟨hSame, hValues⟩
      rw [hStore, hStore', hEntry, hEntry', ← hSame]
      rcases h.replay _ with ⟨hTop, hLeft⟩
      refine ⟨hLeft, ?_⟩
      simp only [Entry.layerValues, hTop, hValues]

/- What was prepared in one of them does not matter. -/
theorem Alike.commit_of_ok
    {e f : Entry K V δ ω}
    (h : e.Alike f)
    {c c' : γ}
    {s : σ}
    {version version' : Option Version}
    (hOk : (e.commit c s version).result = .ok ())
    (hOk' : (f.commit c' s version').result = .ok ()) :
    (e.commit c s version).store =
        (f.commit c' s version').store ∧
      (e.commit c s version).entry.layerValues =
        (f.commit c' s version').entry.layerValues := by
  have hReady : e.ready.1.Alike f.ready.1 :=
    (e.alike_ready.trans h).trans f.alike_ready.symm
  exact hReady.settle_of_ok hOk hOk'

end Entry

end OverlayCache

------------------------------------------------------------
-- Deltas In Accepted Commits
------------------------------------------------------------

namespace OverlayCache

namespace Entry

variable {γ K α δ ω : Type}
variable [Delta δ ω] [Aggregate α δ]

theorem layerValues_settle
    [Repository γ K α]
    {e : Entry K α δ ω}
    {c : γ}
    {version : Option Version}
    (hOk : (e.settle version c ()).result = .ok ()) :
    (e.settle version c ()).entry.layerValues =
      e.absorbedValues := by
  induction e with
  | plain p => rfl
  | alone l => exact congrArg (fun v => [v]) (l.value_replay ())
  | stacked l below ih =>
      rcases settle_stacked_of_ok hOk with
        ⟨hBelow, hEntry, _⟩
      rw [hEntry]
      simp only [layerValues, absorbedValues,
        l.value_replay, ih hBelow]

/-
  Aggregates that the layers hold by themselves absorb what is
  pending there, each in its own layer.
-/
theorem layerValues_commit
    [Repository γ K α]
    {e : Entry K α δ ω}
    {c : γ}
    {version : Option Version}
    (hOk : (e.commit c () version).result = .ok ()) :
    (e.commit c () version).entry.layerValues =
      e.absorbedValues := by
  rw [← e.alike_ready.absorbedValues]
  exact layerValues_settle (e := e.ready.1) hOk

variable [Inhabited α] [Repository γ K (Handle α)]

theorem read_settle
    {e : Entry K (Handle α) δ ω}
    {c : γ}
    {s : Heap α}
    {version : Option Version}
    (hOk : (e.settle version c s).result = .ok ()) :
    (e.settle version c s).entry.layerValues =
        e.layerValues ∧
      ∀ g : Handle α,
        (e.settle version c s).store.read g =
          Aggregate.absorbAll (e.pendingFor g) (s.read g) := by
  induction e with
  | plain p => exact ⟨rfl, fun _ => rfl⟩
  | alone l =>
      rcases l.read_replay s with ⟨hValue, hRead⟩
      exact ⟨congrArg (fun v => [v]) hValue, hRead⟩
  | stacked l below ih =>
      rcases settle_stacked_of_ok hOk with
        ⟨hBelow, hEntry, hStore⟩
      rcases ih hBelow with ⟨hInner, hSoFar⟩
      rcases l.read_replay (below.settle version c s).store
        with ⟨hValue, hRead⟩
      refine ⟨?_, ?_⟩
      · rw [hEntry]
        simp only [layerValues, hValue, hInner]
      · intro g
        rw [hStore, hRead, hSoFar, pendingFor,
          Aggregate.absorbAll_append]

/-
  The layers keep their handles.  Each aggregate absorbs what
  is pending in the layers that hold a handle to it, from the
  innermost one up, and no other aggregate changes.
-/
theorem read_commit
    {e : Entry K (Handle α) δ ω}
    {c : γ}
    {s : Heap α}
    {version : Option Version}
    (hOk : (e.commit c s version).result = .ok ()) :
    (e.commit c s version).entry.layerValues =
        e.layerValues ∧
      ∀ g : Handle α,
        (e.commit c s version).store.read g =
          Aggregate.absorbAll (e.pendingFor g) (s.read g) := by
  rw [← e.alike_ready.layerValues]
  simp only [← e.alike_ready.pendingFor]
  exact read_settle (e := e.ready.1) hOk

end Entry

end OverlayCache

------------------------------------------------------------
-- Retried Commits
------------------------------------------------------------

namespace OverlayCache

namespace Entry

variable {K V δ ω σ : Type}
variable [Delta δ ω] [Holding V σ δ]

/-
  The first entry is what the second one would be, had some
  commits not been tried.  Each of them was refused, by any
  repository and at any version, and between them the client
  went on with the same transaction.
-/
inductive Retried :
    Entry K V δ ω → Entry K V δ ω → Prop
| start (e : Entry K V δ ω) : Retried e e
| attempt
    {γ : Type}
    [Repository γ K V]
    {e f : Entry K V δ ω}
    (h : Retried e f)
    {c : γ}
    {s : σ}
    {version : Option Version}
    {refusal : Refusal}
    (hRefused :
      (e.commit c s version).result = .error refusal) :
    Retried (e.commit c s version).entry f
| call
    {e f : Entry K V δ ω}
    (h : Retried e f)
    {c : Call V δ}
    (hCall : c ≠ .rollback) :
    Retried (e.call c).entry (f.call c).entry

/- Attempts that were refused cannot be told afterwards. -/
theorem Retried.alike
    {e f : Entry K V δ ω}
    (h : Retried e f) :
    e.Alike f := by
  induction h with
  | start e => exact .refl e
  | attempt h hRefused ih =>
      exact (commit_of_refused hRefused).2.2.trans ih
  | call h hCall ih => exact ih.call hCall

/-
  A refused commit leaves the repository, the store and what
  the levels hold as they were.  After any number of refused
  attempts, a commit that is accepted leaves what it would
  leave if nothing had been tried.

  Whatever was tried, each aggregate then takes in what is
  pending in the layers that hold it, once and in order.  A
  layer may hold it by itself, or several of them may hold
  handles to it, of which the innermost comes first.  A map
  folds what it takes in into its mappings, and forgets its
  own changes if there is anything to fold.
-/
theorem refused_commits_lose_nothing :
    (∀ {γ K V δ ω σ : Type}
        [Repository γ K V] [Delta δ ω] [Holding V σ δ]
        {e f : Entry K V δ ω},
      e.Retried f →
        ∀ (c : γ) (s : σ) (version : Option Version),
          let o := e.commit c s version
          (∀ refusal : Refusal,
            o.result = .error refusal →
              o.container = c ∧
                o.store = s ∧
                o.entry.contents = e.contents) ∧
            (o.result = .ok () →
              ∀ (c' : γ) (version' : Option Version),
                let o' := f.commit c' s version'
                o'.result = .ok () →
                  o.store = o'.store ∧
                    o.entry.layerValues =
                      o'.entry.layerValues)) ∧
      (∀ {γ K α δ ω : Type}
          [Repository γ K α] [Delta δ ω] [Aggregate α δ]
          {e f : Entry K α δ ω},
        e.Retried f →
          ∀ (c : γ) (version : Option Version),
            let o := e.commit c () version
            o.result = .ok () →
              o.entry.layerValues = f.absorbedValues) ∧
      (∀ {γ K α δ ω : Type}
          [Inhabited α] [Repository γ K (Handle α)]
          [Delta δ ω] [Aggregate α δ]
          {e f : Entry K (Handle α) δ ω},
        e.Retried f →
          ∀ (c : γ) (s : Heap α) (version : Option Version),
            let o := e.commit c s version
            o.result = .ok () →
              o.entry.layerValues = f.layerValues ∧
                ∀ g : Handle α,
                  o.store.read g =
                    Aggregate.absorbAll (f.pendingFor g)
                      (s.read g)) ∧
      ∀ {κ ν : Type} [Ord κ] [Std.TransOrd κ]
        (ts : List (List (MapDelta κ ν)))
        (m : TrackedMap κ ν),
        (Aggregate.absorbAll ts m).entries =
            (m.foldDeltas ts.flatten).entries ∧
          (Aggregate.absorbAll ts m).changes =
            if ts.flatten.isEmpty then m.changes else [] := by
  refine ⟨?_, ?_, ?_, ?_⟩
  · intro γ K V δ ω σ _ _ _ e f h c s version o
    refine ⟨?_, ?_⟩
    · intro refusal hRefused
      rcases commit_of_refused hRefused with
        ⟨hSame, hStore, hAlike⟩
      exact ⟨hSame, hStore, hAlike.contents⟩
    · intro hOk c' version' o' hOk'
      exact h.alike.commit_of_ok hOk hOk'
  · intro γ K α δ ω _ _ _ e f h c version o hOk
    rw [← h.alike.absorbedValues]
    exact layerValues_commit hOk
  · intro γ K α δ ω _ _ _ _ e f h c s version o hOk
    rw [← h.alike.layerValues]
    simp only [← h.alike.pendingFor]
    exact read_commit hOk
  · intro κ ν _ _ ts m
    exact
      ⟨TrackedMap.entries_absorbAll ts m,
        TrackedMap.changes_absorbAll ts m⟩

/- A key that is being created, with one pending delta. -/
def creation :
    Entry Nat (Handle (TrackedMap Nat Nat))
      (MapDelta Nat Nat) (TrackedMap Nat Nat) :=
  ((Entry.stacked (.fresh 1 (some ⟨0⟩) {})
    (.plain (.created 1 ⟨0⟩))).call
      (.append ⟨[.put 1 10]⟩)).entry

/-
  A closed container refuses the creation.  Another delta for
  the same key is appended, and a full container refuses both.
  The map had recorded a change of its own, which it keeps
  until the deltas are taken in, the later one last.
-/
theorem commit_of_retried_creation :
    let closed : Container Nat (Handle (TrackedMap Nat Nat)) :=
      (Container.empty none).close
    let full : Container Nat (Handle (TrackedMap Nat Nat)) :=
      .empty (some 0)
    let c : Container Nat (Handle (TrackedMap Nat Nat)) :=
      .empty none
    let s : Heap (TrackedMap Nat Nat) :=
      (Heap.empty.alloc (TrackedMap.empty.put 2 20).2).2
    let once := (creation.commit closed s none).entry
    let more := (once.call (.append ⟨[.put 1 11]⟩)).entry
    let refused := more.commit full s (some ⟨7⟩)
    let o := refused.entry.commit c s none
    refused.store = s ∧
      refused.entry.contents = more.contents ∧
      o.result = .ok () ∧
      (o.store.read ⟨0⟩).toList = [(1, 11), (2, 20)] ∧
      (o.store.read ⟨0⟩).changes = [] := by
  intro closed full c s once more refused o
  rcases refused_commits_lose_nothing with
    ⟨hAny, -, hHandles, hMaps⟩
  have hClosed :
      (creation.commit closed s none).result =
        .error .closed := rfl
  have hFull : refused.result = .error (.full 0) := rfl
  have hMore :
      more.Retried
        (creation.call (.append ⟨[.put 1 11]⟩)).entry :=
    ((Retried.start creation).attempt hClosed).call (by simp)
  have hRetried := hMore.attempt hFull
  have hOk : o.result = .ok () := rfl
  rcases (hAny hMore full s (some ⟨7⟩)).1 (.full 0) hFull with
    ⟨-, hStore, hContents⟩
  have hRead := (hHandles hRetried c s none hOk).2 ⟨0⟩
  refine ⟨hStore, hContents, hOk, ?_, ?_⟩
  · rw [hRead]
    decide
  · rw [hRead, (hMaps _ _).2]
    rfl

end Entry

end OverlayCache
