import OverlayCache.Proofs.Wrapped.Basic
import OverlayCache.Shared

/-
  What a layer shows after a commit, and what is stored.

  The commit publishes the value of the plain entry, and the
  layer shows its own with the deltas replayed into it.  They
  are the same thing when both are one handle, which is so
  until somebody replaces the value of the layer.  A map that
  is held by itself is published without the deltas.  A plain
  entry without a value, as after a removal, publishes
  nothing.

  Key definitions include:
    * `Outcome.Shows`
    * `Layer.OpenOver`

  The main statements are:
    * `Entry.get?_commit`
    * `Entry.shows_commit_iff`
    * `Entry.commit_shows_stored_iff`
-/

------------------------------------------------------------
-- Published Values
------------------------------------------------------------

namespace OverlayCache

/- What an entry shows agrees with what is under its key. -/
def Outcome.Shows
    {γ K V δ ω σ : Type} [ReadableRepository γ K V]
    (agree : V → V → Prop)
    (o : Outcome γ K V δ ω σ) : Prop :=
  ∃ stored shown : V,
    ReadableRepository.get? o.container o.entry.key =
        some stored ∧
      o.entry.value = some shown ∧
      agree stored shown

/-
  A layer that was written to shows a value, over a plain
  entry of its key that is valid and not removed.
-/
structure Layer.OpenOver
    {K V δ ω : Type}
    (l : Layer K V δ ω)
    (p : Plain K V)
    (v : V) : Prop where
  key : l.key = p.key
  changed : l.flags.changed = true
  valid : p.flags.valid = true
  present : p.flags.removed = false
  value : l.value = some v

namespace Entry

variable {γ K V δ ω σ : Type}
variable [ReadableRepository γ K V]
variable [Delta δ ω] [Holding V σ δ]

/-
  A plain entry that has a value puts it under the key, and
  one that has none leaves there what there was.
-/
theorem get?_commit
    {e : Entry K V δ ω}
    {p : Plain K V}
    (hBottom : e.bottom = .plain p)
    (hTouched : e.isTouched = true)
    (hValid : p.flags.valid = true)
    (hPresent : p.flags.removed = false)
    {c : γ}
    {s : σ}
    {version : Option Version}
    (hOk : (e.commit c s version).result = .ok ()) :
    ReadableRepository.get?
        (e.commit c s version).container p.key =
      p.value.or (ReadableRepository.get? c p.key) := by
  cases hValue : p.value with
  | some v =>
      have hOffer : e.offer? = some v := by
        rw [offer?_of_bottom hBottom]
        simp [hTouched, hValid, hPresent, hValue]
      unfold ReadableRepository.get?
      rw [(stored?_commit hBottom hOffer hOk).1]
      rfl
  | none =>
      have hNothing : p.publication = .nothing := by
        simp [Plain.publication, hPresent, hValid, hValue]
      have hCarried := carryOut_of_ok hBottom hTouched hOk
      rw [hNothing] at hCarried
      rw [← Except.ok.inj hCarried]
      rfl

/- The layer shows its own value with the deltas replayed. -/
theorem shows_commit_iff
    {l : Layer K V δ ω}
    {p : Plain K V}
    {v : V}
    (h : l.OpenOver p v)
    {c : γ}
    {s : σ}
    {version : Option Version}
    (hOk :
      ((stacked l (.plain p)).commit c s version).result =
        .ok ())
    (agree : V → V → Prop) :
    ((stacked l (.plain p)).commit c s version).Shows agree ↔
      ∃ stored : V,
        p.value.or (ReadableRepository.get? c p.key) =
            some stored ∧
          agree stored
            (Holding.replay l.pending v s).1 := by
  have hTouched : (stacked l (.plain p)).isTouched = true :=
    isTouched_of_isChanged h.changed
  have hGet :=
    get?_commit rfl hTouched h.valid h.present hOk
  rcases commit_stacked_plain l p c s version with
    ⟨_, hRefused, _⟩ | ⟨_, _, hEntry⟩
  · rw [hOk] at hRefused
    cases hRefused
  · have hShown :
        (l.replay s).layer.value =
            some (Holding.replay l.pending v s).1 ∧
          (l.replay s).layer.key = p.key := by
      unfold Layer.replay
      rw [h.value]
      exact ⟨rfl, h.key⟩
    unfold Outcome.Shows
    rw [hEntry]
    simp only [key, value, hShown.1, hShown.2, hGet]
    constructor
    · rintro ⟨stored, shown, hStored, hSame, hAgree⟩
      cases hSame
      exact ⟨stored, hStored, hAgree⟩
    · rintro ⟨stored, hStored, hAgree⟩
      exact ⟨stored, _, hStored, rfl, hAgree⟩

end Entry

end OverlayCache

------------------------------------------------------------
-- Shared And Unshared Values
------------------------------------------------------------

namespace OverlayCache

namespace Entry

variable {γ K : Type}

/- A handle is shown and published as it is. -/
theorem shows_commit_handle
    {α δ ω : Type}
    [Inhabited α] [Aggregate α δ] [Delta δ ω]
    [ReadableRepository γ K (Handle α)]
    {l : Layer K (Handle α) δ ω}
    {p : Plain K (Handle α)}
    {g : Handle α}
    (h : l.OpenOver p g)
    {c : γ}
    {s : Heap α}
    {version : Option Version}
    (hOk :
      ((stacked l (.plain p)).commit c s version).result =
        .ok ()) :
    ((stacked l (.plain p)).commit c s version).Shows Eq ↔
      p.value.or (ReadableRepository.get? c p.key) =
        some g := by
  rw [shows_commit_iff h hOk, Holding.replay_handle_fst]
  simp

/- A map is shown with the deltas and published without. -/
theorem shows_commit_map
    {κ ν : Type} [Ord κ] [Std.TransOrd κ]
    [ReadableRepository γ K (TrackedMap κ ν)]
    {l :
      Layer K (TrackedMap κ ν) (MapDelta κ ν)
        (TrackedMap κ ν)}
    {p : Plain K (TrackedMap κ ν)}
    {m : TrackedMap κ ν}
    (h : l.OpenOver p m)
    {c : γ}
    {version : Option Version}
    (hOk :
      ((stacked l (.plain p)).commit c () version).result =
        .ok ()) :
    ((stacked l (.plain p)).commit c () version).Shows
        (fun m n => m.entries = n.entries) ↔
      ∃ n : TrackedMap κ ν,
        p.value.or (ReadableRepository.get? c p.key) =
            some n ∧
          n.entries = (m.foldDeltas l.pending).entries := by
  rw [shows_commit_iff h hOk, Holding.replay_value]
  simp only [TrackedMap.entries_absorb]

end Entry

end OverlayCache

------------------------------------------------------------
-- Commits After Histories
------------------------------------------------------------

namespace OverlayCache

namespace Entry

variable {γ K : Type}

/-
  The handle that a plain entry keeps is what every commit of
  a history stores.
-/
theorem shows_commit_handle_of_history
    {α δ ω : Type}
    [Inhabited α] [Aggregate α δ] [Delta δ ω]
    [ReadableRepository γ K (Handle α)]
    {p : Plain K (Handle α)}
    {h g : Handle α}
    (hKeeps : p.Keeps h)
    (config : Config)
    (s : Heap α)
    (actions : List (Action γ (Handle α) δ)) :
    let start : Point K (Handle α) δ ω (Heap α) :=
      .wrapping p h config s
    let q := start.run actions
    q.entry.isChanged = true →
      q.entry.is .valid = true →
      q.entry.value = some g →
      ∀ (c : γ) (version : Option Version),
        let o := q.entry.commit c q.store version
        o.result = .ok () → (o.Shows Eq ↔ g = h) := by
  intro start q hChanged hValid hValue c version
  have hFollows :
      (({} : Course δ).run start actions).Follows h q.entry :=
    (Course.follows_wrapping hKeeps h config s).run actions
  generalize q.entry = e at *
  cases hFollows with
  | @layered l p' hBy =>
      intro o hOk
      have hOpen : l.OpenOver p' g :=
        ⟨hBy.key, hChanged, hValid, hBy.keeps.present, hValue⟩
      rw [shows_commit_handle hOpen hOk, hBy.keeps.value,
        Option.some_or, Option.some.injEq, eq_comm]

/-
  The map that a plain entry keeps is what every commit of a
  history stores, while the layer shows it with the deltas of
  all transactions since the last rollback.
-/
theorem shows_commit_map_of_history
    {κ ν : Type} [Ord κ] [Std.TransOrd κ]
    [ReadableRepository γ K (TrackedMap κ ν)]
    {p : Plain K (TrackedMap κ ν)}
    {m : TrackedMap κ ν}
    (hKeeps : p.Keeps m)
    (config : Config)
    {actions :
      List (Action γ (TrackedMap κ ν) (MapDelta κ ν))}
    (hActions : ∀ a ∈ actions, a.KeepsValue) :
    let start :
        Point K (TrackedMap κ ν) (MapDelta κ ν)
          (TrackedMap κ ν) Unit :=
      .wrapping p m config ()
    let q := start.run actions
    let t := ({} : Course (MapDelta κ ν)).run start actions
    q.entry.isChanged = true →
      q.entry.is .valid = true →
      ∀ (c : γ) (version : Option Version),
        let o := q.entry.commit c q.store version
        o.result = .ok () →
          (o.Shows (fun m n => m.entries = n.entries) ↔
            m.entries =
              (m.foldDeltas
                (t.recent.flatten ++ t.accepted)).entries) := by
  intro start q t hChanged hValid c version
  have hFollows : t.Follows m q.entry :=
    (Course.follows_wrapping hKeeps m config ()).run actions
  have hValue :
      q.entry.value =
        some (Aggregate.absorbAll t.recent m) :=
    Course.value_after_history hKeeps config hActions
  have hFolded :
      ((Aggregate.absorbAll t.recent m).foldDeltas
          t.accepted).entries =
        (m.foldDeltas
          (t.recent.flatten ++ t.accepted)).entries := by
    rw [TrackedMap.foldDeltas_append]
    exact
      TrackedMap.entries_foldDeltas
        (TrackedMap.entries_absorbAll t.recent m) t.accepted
  generalize q.entry = e at *
  cases hFollows with
  | @layered l p' hBy =>
      intro o hOk
      have hOpen :
          l.OpenOver p' (Aggregate.absorbAll t.recent m) :=
        ⟨hBy.key, hChanged, hValid, hBy.keeps.present, hValue⟩
      rw [shows_commit_map hOpen hOk, hBy.keeps.value,
        hBy.pending, hFolded]
      simp

/-
  A layer that holds a handle shows after a commit what is
  stored exactly when the plain entry holds the same one, or
  holds none and the same one is stored already.  A layer that
  holds a map does so exactly when the map there has the
  mappings that the layer has once the deltas are folded in.
  After a history on a plain entry that keeps its value, the
  first is the case exactly when the layer still holds the
  handle it was built over, as it does if nobody replaced the
  value, and the second when the deltas since the last
  rollback leave the map it was built over.
-/
theorem commit_shows_stored_iff
    {ρ α δ ω κ ν : Type}
    [Inhabited α] [Aggregate α δ] [Delta δ ω]
    [ReadableRepository γ K (Handle α)]
    [Ord κ] [Std.TransOrd κ]
    [ReadableRepository ρ K (TrackedMap κ ν)] :
    (∀ (l : Layer K (Handle α) δ ω)
        (p : Plain K (Handle α))
        (g : Handle α),
      l.OpenOver p g →
        ∀ (c : γ) (s : Heap α) (version : Option Version),
          let o := (stacked l (.plain p)).commit c s version
          o.result = .ok () →
            (o.Shows Eq ↔
              p.value.or (ReadableRepository.get? c p.key) =
                some g)) ∧
      (∀ (l :
            Layer K (TrackedMap κ ν) (MapDelta κ ν)
              (TrackedMap κ ν))
          (p : Plain K (TrackedMap κ ν))
          (m : TrackedMap κ ν),
        l.OpenOver p m →
          ∀ (c : ρ) (version : Option Version),
            let o :=
              (stacked l (.plain p)).commit c () version
            o.result = .ok () →
              (o.Shows (fun m n => m.entries = n.entries) ↔
                ∃ n : TrackedMap κ ν,
                  p.value.or
                      (ReadableRepository.get? c p.key) =
                      some n ∧
                    n.entries =
                      (m.foldDeltas l.pending).entries)) ∧
      (∀ (p : Plain K (Handle α))
          (h g : Handle α)
          (config : Config)
          (s : Heap α)
          (actions : List (Action γ (Handle α) δ)),
        p.Keeps h →
          let start : Point K (Handle α) δ ω (Heap α) :=
            .wrapping p h config s
          let q := start.run actions
          q.entry.isChanged = true →
            q.entry.is .valid = true →
            q.entry.value = some g →
            (∀ (c : γ) (version : Option Version),
              let o := q.entry.commit c q.store version
              o.result = .ok () → (o.Shows Eq ↔ g = h)) ∧
              ((∀ a ∈ actions, a.KeepsValue) → g = h)) ∧
      ∀ (p : Plain K (TrackedMap κ ν))
        (m : TrackedMap κ ν)
        (config : Config)
        (actions :
          List (Action ρ (TrackedMap κ ν) (MapDelta κ ν))),
        p.Keeps m →
          (∀ a ∈ actions, a.KeepsValue) →
            let start :
                Point K (TrackedMap κ ν) (MapDelta κ ν)
                  (TrackedMap κ ν) Unit :=
              .wrapping p m config ()
            let q := start.run actions
            let t :=
              ({} : Course (MapDelta κ ν)).run start actions
            q.entry.isChanged = true →
              q.entry.is .valid = true →
              ∀ (c : ρ) (version : Option Version),
                let o := q.entry.commit c q.store version
                o.result = .ok () →
                  (o.Shows (fun m n => m.entries = n.entries) ↔
                    m.entries =
                      (m.foldDeltas
                        (t.recent.flatten ++
                          t.accepted)).entries) := by
  refine ⟨?_, ?_, ?_, ?_⟩
  · intro l p g hOpen c s version o hOk
    exact shows_commit_handle hOpen hOk
  · intro l p m hOpen c version o hOk
    exact shows_commit_map hOpen hOk
  · intro p h g config s actions hKeeps start q hChanged hValid
      hValue
    refine ⟨?_, ?_⟩
    · exact
        shows_commit_handle_of_history hKeeps config s actions
          hChanged hValid hValue
    · intro hActions
      have hHandle :=
        (Course.handle_after_history (ω := ω) hKeeps config s
          hActions).value
      exact Option.some.inj (hValue.symm.trans hHandle)
  · intro p m config actions hKeeps hActions
    exact shows_commit_map_of_history hKeeps config hActions

/- Two transactions, of which the second is rolled back. -/
def unreplaced :
    List
      (Action
        (Container Nat (Handle (TrackedMap Nat Nat)))
        (Handle (TrackedMap Nat Nat)) (MapDelta Nat Nat)) :=
  [.call (.append ⟨[.put 1 10]⟩),
    .commit (.empty none) none,
    .call (.append ⟨[.clear]⟩),
    .call .rollback,
    .call (.append ⟨[.put 2 20]⟩)]

/-
  A handle that nobody replaced is what is stored.  A map is
  stored without the delta, so it is what the layer shows only
  if the deltas come to nothing.  After a removal nothing is
  stored at all.
-/
theorem commit_shows_stored_unreplaced :
    let M := TrackedMap Nat Nat
    let c : Container Nat (Handle M) := .empty none
    let d : Container Nat M := .empty none
    let same (m n : M) : Prop := m.entries = n.entries
    let q : Point Nat (Handle M) (MapDelta Nat Nat) M (Heap M) :=
      (Point.wrapping (.existing 0 (some ⟨0⟩)) ⟨0⟩ {}
        Heap.empty).run unreplaced
    let actions :
        List (Action (Container Nat M) M (MapDelta Nat Nat)) :=
      [.call (.append ⟨[.put 1 10]⟩),
        .commit d none,
        .call (.append ⟨[.remove 1]⟩)]
    let r : Point Nat M (MapDelta Nat Nat) M Unit :=
      (Point.wrapping (.existing 0 (some .empty)) .empty {}
        ()).run actions
    let l : Layer Nat M (MapDelta Nat Nat) M :=
      (Layer.fresh 0 (some .empty) {}).append false
        ⟨[.put 1 10]⟩
    let p : Plain Nat M := .existing 0 (some .empty)
    let l' : Layer Nat (Handle M) (MapDelta Nat Nat) M :=
      (Layer.fresh 0 (some ⟨0⟩) {}).append false
        ⟨[.put 1 10]⟩
    let p' : Plain Nat (Handle M) := .existing 0 none
    (q.entry.commit c q.store none).Shows Eq ∧
      (r.entry.commit d r.store none).Shows same ∧
      ¬ ((stacked l (.plain p)).commit d () none).Shows same ∧
      ¬ ((stacked l' (.plain p')).commit c
          Heap.empty none).Shows Eq := by
  intro M c d same q actions r l p l' p'
  have hAll :=
    commit_shows_stored_iff
      (γ := Container Nat (Handle M)) (K := Nat)
      (ρ := Container Nat M) (α := M)
      (δ := MapDelta Nat Nat) (ω := M) (κ := Nat) (ν := Nat)
  rcases hAll with ⟨hHandle, hMap, hHandles, hMaps⟩
  refine ⟨?_, ?_, ?_, ?_⟩
  · have hKeeps : ∀ a ∈ unreplaced, a.KeepsValue := by
      simp [unreplaced, Action.KeepsValue, Call.KeepsValue]
    have hSame :=
      hHandles (.existing 0 (some ⟨0⟩)) ⟨0⟩ ⟨0⟩ {} Heap.empty
        unreplaced (.existing 0 _) rfl rfl rfl
    exact (hSame.1 c none rfl).mpr (hSame.2 hKeeps)
  · have hKeeps : ∀ a ∈ actions, a.KeepsValue := by
      simp [actions, Action.KeepsValue, Call.KeepsValue]
    have hShows :=
      hMaps (.existing 0 (some .empty)) .empty {} actions
        (.existing 0 _) hKeeps rfl rfl d none rfl
    exact hShows.mpr (eq_of_beq (by decide))
  · have hOpen : l.OpenOver p .empty :=
      ⟨rfl, rfl, rfl, rfl, rfl⟩
    rw [hMap l p .empty hOpen d none rfl]
    rintro ⟨n, hStored, hEntries⟩
    have hNone : n = .empty :=
      (Option.some.inj hStored).symm
    rw [hNone] at hEntries
    have hLists := congrArg (fun es => es.toList) hEntries
    revert hLists
    decide
  · have hOpen : l'.OpenOver p' ⟨0⟩ :=
      ⟨rfl, rfl, rfl, rfl, rfl⟩
    rw [hHandle l' p' ⟨0⟩ hOpen c Heap.empty none rfl]
    decide

/-
  The layer is given another handle.  The delta goes into the
  aggregate of that one, and the handle that the layer was
  built over is published without it.
-/
theorem stored_of_replaced :
    let M := TrackedMap Nat Nat
    let s : Heap M :=
      ((Heap.empty.alloc .empty).2.alloc .empty).2
    let c : Container Nat (Handle M) := .empty none
    let actions :
        List
          (Action (Container Nat (Handle M)) (Handle M)
            (MapDelta Nat Nat)) :=
      [.call (.setValue (some ⟨1⟩)),
        .call (.append ⟨[.put 1 10]⟩)]
    let p : Plain Nat (Handle M) := .created 0 ⟨0⟩
    let q : Point Nat (Handle M) (MapDelta Nat Nat) M (Heap M) :=
      (Point.wrapping p.capture ⟨0⟩ {} s).run actions
    let o := q.entry.commit c q.store none
    q.entry.isChanged = true ∧
      q.entry.is .valid = true ∧
      q.entry.is .removed = false ∧
      q.entry.value = some ⟨1⟩ ∧
      o.result = .ok () ∧
      o.container.get? 0 = some ⟨0⟩ ∧
      (o.store.read ⟨0⟩).toList = [] ∧
      (o.store.read ⟨1⟩).toList = [(1, 10)] ∧
      ¬ o.Shows Eq := by
  intro M s c actions p q o
  have hStored : o.container.get? 0 = some ⟨0⟩ := by
    decide
  refine
    ⟨rfl, rfl, rfl, rfl, rfl, hStored, by decide, by decide, ?_⟩
  rintro ⟨stored, shown, hGet, hValue, hEq⟩
  have hZero : stored = ⟨0⟩ :=
    Option.some.inj (hGet.symm.trans hStored)
  have hOne : shown = ⟨1⟩ :=
    Option.some.inj hValue.symm
  rw [hZero, hOne] at hEq
  revert hEq
  decide

end Entry

end OverlayCache
