import OverlayCache.Proofs.Commit.Refused
import OverlayCache.Proofs.Layers.Consistent
import OverlayCache.Proofs.Map.Touched

/-
  What a transaction on a map reads of its own writes.

  The working copy of a layer is the fold of the pending
  deltas from the empty map, while a commit replays the same
  deltas into the live map, whatever that has become by then.
  Both agree on every key that some pending operation touches,
  and the commit leaves the other keys alone.

  Key definitions include:
    * `Layer.Writes`

  The main statements are:
    * `Layer.Coherent.writes`
    * `Entry.value_commit_of_single`
    * `Entry.commit_shows_writes`
-/

------------------------------------------------------------
-- Writes Of A Layer
------------------------------------------------------------

namespace OverlayCache

namespace Layer

variable {K V κ ν : Type} [Ord κ] [Std.TransOrd κ]

/-
  One map comes from another by the writes of a layer.  It has
  what the working copy has under the keys that a pending
  delta touches, and what the other map has under the rest.
-/
def Writes
    (l : Layer K V (MapDelta κ ν) (TrackedMap κ ν))
    (before after : TrackedMap κ ν) : Prop :=
  ∀ k : κ,
    after.get? k =
      if l.pending.any (fun d => d.touches k) then
        l.work.get? k
      else
        before.get? k

/- A coherent layer writes what is pending. -/
theorem Coherent.writes
    {l : Layer K V (MapDelta κ ν) (TrackedMap κ ν)}
    (h : l.Coherent)
    (m : TrackedMap κ ν) :
    l.Writes m (Aggregate.absorb l.pending m) := by
  intro k
  have hAbsorbed :
      (Aggregate.absorb l.pending m).get? k =
        (m.foldDeltas l.pending).get? k :=
    congrArg (fun es => es[k]?)
      (TrackedMap.entries_absorb l.pending m)
  rw [hAbsorbed, TrackedMap.get?_foldDeltas, h.work]
  rfl

end Layer

end OverlayCache

------------------------------------------------------------
-- Commits Of Single Layers
------------------------------------------------------------

namespace OverlayCache

namespace Entry

variable {γ K V δ ω σ : Type}

/- A single layer is coherent after any history. -/
theorem Bare.coherent_single
    [Repository γ K V]
    [Delta δ ω] [Holding V σ δ]
    {e : Entry K V δ ω}
    (h : e.Bare)
    {ms : List (Move γ K V δ σ)}
    {l : Layer K V δ ω}
    (hSingle : (e.moves ms).layers = [l]) :
    l.Coherent := by
  apply coherent_moves h.coherent ms
  rw [hSingle]
  exact List.mem_singleton_self l

/- An accepted commit replays a single layer by itself. -/
theorem value_commit_of_single
    [Repository γ K V]
    [Delta δ ω] [Holding V σ δ]
    {e : Entry K V δ ω}
    {l : Layer K V δ ω}
    {v : V}
    (hSingle : e.layers = [l])
    (hValue : l.value = some v)
    {c : γ}
    {s : σ}
    {version : Option Version}
    (hOk : (e.commit c s version).result = .ok ()) :
    let r := Holding.replay l.pending v s
    (e.commit c s version).entry.value = some r.1 ∧
      (e.commit c s version).store = r.2 := by
  intro r
  have hReplayed :
      (l.replay s).layer.value = some r.1 ∧
        (l.replay s).store = r.2 := by
    unfold Layer.replay
    rw [hValue]
    exact ⟨rfl, rfl⟩
  rcases layers_eq_singleton.mp hSingle with rfl | ⟨p, rfl⟩
  · exact hReplayed
  · rcases commit_stacked_plain l p c s version with
      ⟨refusal, hRefused, _⟩ | ⟨_, hStore, hEntry⟩
    · rw [hOk] at hRefused
      cases hRefused
    · rw [hEntry, hStore]
      exact hReplayed

end Entry

end OverlayCache

------------------------------------------------------------
-- Shared And Unshared Maps
------------------------------------------------------------

namespace OverlayCache

namespace Entry

/-
  A layer that stands alone or lies over a plain entry holds a
  map, or a handle to a map that may have changed since the
  deltas were appended.  After any history, once its commit
  goes through, the live map has under each key what the
  working copy had there if a pending delta touches the key,
  and otherwise what the live map had just before.
-/
theorem commit_shows_writes
    {γ ρ K κ ν : Type} [Ord κ] [Std.TransOrd κ]
    [Repository γ K (TrackedMap κ ν)]
    [Repository ρ K (Handle (TrackedMap κ ν))] :
    (∀ (start :
          Entry K (TrackedMap κ ν) (MapDelta κ ν)
            (TrackedMap κ ν))
        (ms :
          List
            (Move γ K (TrackedMap κ ν) (MapDelta κ ν) Unit)),
      start.Bare →
        let e := start.moves ms
        ∀ (l :
            Layer K (TrackedMap κ ν) (MapDelta κ ν)
              (TrackedMap κ ν))
          (m : TrackedMap κ ν),
          e.layers = [l] →
            l.value = some m →
            ∀ (c : γ) (version : Option Version),
              let o := e.commit c () version
              o.result = .ok () →
                ∃ n : TrackedMap κ ν,
                  o.entry.value = some n ∧ l.Writes m n) ∧
      ∀ (start :
          Entry K (Handle (TrackedMap κ ν)) (MapDelta κ ν)
            (TrackedMap κ ν))
        (ms :
          List
            (Move ρ K (Handle (TrackedMap κ ν))
              (MapDelta κ ν) (Heap (TrackedMap κ ν)))),
        start.Bare →
          let e := start.moves ms
          ∀ (l :
              Layer K (Handle (TrackedMap κ ν))
                (MapDelta κ ν) (TrackedMap κ ν))
            (h : Handle (TrackedMap κ ν)),
            e.layers = [l] →
              l.value = some h →
              ∀ (c : ρ) (s : Heap (TrackedMap κ ν))
                (version : Option Version),
                let o := e.commit c s version
                o.result = .ok () →
                  o.entry.value = some h ∧
                    l.Writes (s.read h) (o.store.read h) := by
  refine ⟨?_, ?_⟩
  · intro start ms hBare e l m hSingle hValue c version o hOk
    have hCoherent : l.Coherent :=
      hBare.coherent_single hSingle
    rcases value_commit_of_single hSingle hValue hOk with
      ⟨hShown, _⟩
    rw [Holding.replay_value] at hShown
    exact ⟨_, hShown, hCoherent.writes m⟩
  · intro start ms hBare e l h hSingle hValue c s version o hOk
    have hCoherent : l.Coherent :=
      hBare.coherent_single hSingle
    rcases value_commit_of_single hSingle hValue hOk with
      ⟨hShown, hStore⟩
    rw [Holding.replay_handle_fst] at hShown
    refine ⟨hShown, ?_⟩
    rw [hStore, Heap.read_replay, if_pos rfl]
    exact hCoherent.writes (s.read h)

/-
  A map is cleared in one of two deltas.  A handle is written
  to under two keys, and by the time of the commit its map
  has been changed under one of them and under another key.
-/
theorem commit_shows_writes_of_moved :
    let m : TrackedMap Nat Nat := .ofList [(1, 10), (3, 30)]
    let alone :
        Entry Nat (TrackedMap Nat Nat) (MapDelta Nat Nat)
          (TrackedMap Nat Nat) :=
      .alone (.fresh 1 (some m) {})
    let cleared :
        List
          (Move (Container Nat (TrackedMap Nat Nat)) Nat
            (TrackedMap Nat Nat) (MapDelta Nat Nat) Unit) :=
      [.act () (.call (.append ⟨[.put 1 11, .clear]⟩)),
        .act () (.call (.append ⟨[.put 2 20]⟩))]
    let c : Container Nat (TrackedMap Nat Nat) := .empty none
    let o := (alone.moves cleared).commit c () none
    let h : Handle (TrackedMap Nat Nat) := ⟨0⟩
    let plain :
        Entry Nat (Handle (TrackedMap Nat Nat))
          (MapDelta Nat Nat) (TrackedMap Nat Nat) :=
      .plain (.existing 1 (some h))
    let written :
        List
          (Move (Container Nat (Handle (TrackedMap Nat Nat)))
            Nat (Handle (TrackedMap Nat Nat))
            (MapDelta Nat Nat) (Heap (TrackedMap Nat Nat))) :=
      [.cover 1 (some h) {},
        .act .empty (.call (.append ⟨[.put 1 11, .remove 2]⟩))]
    let moved : Heap (TrackedMap Nat Nat) :=
      Heap.empty.write h (.ofList [(2, 5), (3, 7)])
    let d : Container Nat (Handle (TrackedMap Nat Nat)) :=
      .empty none
    let p := (plain.moves written).commit d moved none
    (∃ n : TrackedMap Nat Nat,
      o.entry.value = some n ∧
        n.get? 1 = none ∧
        n.get? 2 = some 20 ∧
        n.get? 3 = none) ∧
      (p.store.read h).get? 1 = some 11 ∧
      (p.store.read h).get? 2 = none ∧
      (p.store.read h).get? 3 = some 7 := by
  intro m alone cleared c o h plain written moved d p
  rcases commit_shows_writes
      (γ := Container Nat (TrackedMap Nat Nat))
      (ρ := Container Nat (Handle (TrackedMap Nat Nat)))
      (K := Nat) (κ := Nat) (ν := Nat) with
    ⟨hUnshared, hShared⟩
  rcases hUnshared alone cleared (.alone 1 (some m) {}) _ m
      rfl rfl c none rfl with
    ⟨n, hValue, hWrites⟩
  have hWritten :=
    (hShared plain written (.plain _) _ h rfl rfl d moved
      none rfl).2
  refine
    ⟨⟨n, hValue, (hWrites 1).trans ?_, (hWrites 2).trans ?_,
        (hWrites 3).trans ?_⟩,
      (hWritten 1).trans ?_, (hWritten 2).trans ?_,
      (hWritten 3).trans ?_⟩
  all_goals decide

end Entry

end OverlayCache
