import OverlayCache.Proofs.Layers.FirstWrite
import OverlayCache.Proofs.Layers.Writes
import OverlayCache.Proofs.Lifecycle.Strict
import OverlayCache.Proofs.Map.Exported
import OverlayCache.Proofs.Transactions.Sights
import OverlayCache.Proofs.Wrapped.Shown

/-
  How operations are grouped into deltas.

  A map sees the operations of the deltas one by one, so two
  lists of deltas with the same operations in the same order
  do the same, wherever one delta ends and the next begins.
  This goes for the working copy of a layer, into which deltas
  are merged, and for the live value, into which a commit
  replays them.

  Key definitions include:
    * `MapDelta.joined`
    * `TrackedMap.ComesBy`
    * `Entry.appendAll`
    * `Entry.Move.LeavesValue`
    * `Entry.OpenedOn`

  The main statements are:
    * `TrackedMap.foldDeltas_congr`
    * `Entry.appendAll_eq`
    * `Entry.appendAll_alike`
    * `Entry.OpenedOn.moves`
    * `Entry.commits_alone_alike`
    * `Entry.OpenedOn.commits_alike`
    * `Entry.grouping_does_not_matter`
-/

------------------------------------------------------------
-- Deltas With The Same Operations
------------------------------------------------------------

namespace OverlayCache

variable {κ ν : Type}

/- One delta with the operations of many. -/
def MapDelta.joined
    (ds : List (MapDelta κ ν)) : MapDelta κ ν :=
  ⟨ds.flatMap MapDelta.ops⟩

namespace TrackedMap

variable [Ord κ] [Std.TransOrd κ]

/-
  A map has the mappings that deltas make of another one, when
  they are folded in one by one, and when one delta with all
  their operations is applied or merged.
-/
structure ComesBy
    (ds : List (MapDelta κ ν))
    (before after : TrackedMap κ ν) : Prop where
  folded : after.entries = (before.foldDeltas ds).entries
  applied :
    after.entries =
      (Aggregate.apply (MapDelta.joined ds) before).entries
  merged :
    after.entries =
      (Delta.merge (MapDelta.joined ds) before).entries

/- Only the operations count, and not their grouping. -/
theorem foldDeltas_congr
    {ds es : List (MapDelta κ ν)}
    (hOps : ds.flatMap MapDelta.ops = es.flatMap MapDelta.ops)
    (m : TrackedMap κ ν) :
    m.foldDeltas ds = m.foldDeltas es := by
  rw [foldDeltas_eq_replayDelta, foldDeltas_eq_replayDelta,
    hOps]

theorem comesBy_of_folded
    {ds : List (MapDelta κ ν)}
    {before after : TrackedMap κ ν}
    (hFolded :
      after.entries = (before.foldDeltas ds).entries) :
    ComesBy ds before after := by
  have hJoined :
      after.entries =
        (replayDelta (MapDelta.joined ds) before).entries := by
    rw [hFolded, foldDeltas_eq_replayDelta]
    rfl
  exact ⟨hFolded, hJoined, hJoined⟩

end TrackedMap

end OverlayCache

------------------------------------------------------------
-- Appended Deltas
------------------------------------------------------------

namespace OverlayCache

namespace Entry

variable {K V δ ω : Type} [Delta δ ω]

/- Append deltas in order, whether they are taken or not. -/
def appendAll
    (e : Entry K V δ ω)
    (ds : List δ) : Entry K V δ ω :=
  e.after (ds.map .append)

/- The topmost layer takes a delta, or the entry stays. -/
theorem append_entry
    {e : Entry K V δ ω}
    {l : Layer K V δ ω}
    (hTop : e.top? = some l)
    (d : δ) :
    (e.append d).entry =
      if l.config.strict && e.isBarred then
        e
      else
        e.withTop (l.append (e.is .created) d) := by
  unfold isBarred
  simp only [append, hTop]
  split
  · rfl
  · rfl

/- A delta that is taken leaves the lifecycle as it is. -/
theorem isBarred_withTop_append
    {e : Entry K V δ ω}
    {l : Layer K V δ ω}
    (hTop : e.top? = some l)
    (created : Bool)
    (d : δ) :
    (e.withTop (l.append created d)).isBarred = e.isBarred := by
  cases e with
  | plain p => cases hTop
  | alone l' =>
      cases hTop
      simp only [isBarred, withTop, is, Layer.flags_append]
      rfl
  | stacked l' below => rfl

section Tops

omit [Delta δ ω]

variable {e : Entry K V δ ω}
variable {l : Layer K V δ ω}

theorem withTop_self
    (hTop : e.top? = some l) :
    e.withTop l = e := by
  cases e with
  | plain p => rfl
  | alone l' =>
      cases hTop
      rfl
  | stacked l' below =>
      cases hTop
      rfl

theorem withTop_withTop
    (e : Entry K V δ ω)
    (l l' : Layer K V δ ω) :
    (e.withTop l).withTop l' = e.withTop l' := by
  cases e with
  | plain p => rfl
  | alone l'' => rfl
  | stacked l'' below => rfl

theorem top?_withTop
    (hTop : e.top? = some l)
    (l' : Layer K V δ ω) :
    (e.withTop l').top? = some l' := by
  cases e with
  | plain p => cases hTop
  | alone l'' => rfl
  | stacked l'' below => rfl

end Tops

/-
  The topmost layer has taken all deltas of a list, or it has
  refused them all.  Which of the two does not depend on them.
-/
theorem appendAll_eq
    {e : Entry K V δ ω}
    {l : Layer K V δ ω}
    (hTop : e.top? = some l)
    (ds : List δ) :
    let taken := if l.config.strict && e.isBarred then [] else ds
    ∃ l' : Layer K V δ ω,
      e.appendAll ds = e.withTop l' ∧
        l'.value = l.value ∧
        l'.pending = l.pending ++ taken ∧
        l'.work = Delta.mergeAll taken l.work := by
  induction ds generalizing e l with
  | nil =>
      refine ⟨l, (withTop_self hTop).symm, rfl, ?_, ?_⟩
      · simp
      · simp [Delta.mergeAll]
  | cons d ds ih =>
      have hStep :
          e.appendAll (d :: ds) =
            (e.append d).entry.appendAll ds := rfl
      rw [hStep, append_entry hTop]
      cases hRefuses : l.config.strict && e.isBarred with
      | true =>
          have hRest := ih hTop
          rw [hRefuses] at hRest
          exact hRest
      | false =>
          let l₁ := l.append (e.is .created) d
          have hTakes :
              (l₁.config.strict && (e.withTop l₁).isBarred) =
                false := by
            rw [isBarred_withTop_append hTop,
              Layer.config_append, hRefuses]
          rcases ih (top?_withTop hTop l₁) with
            ⟨l', hEntry, hValue, hPending, hWork⟩
          rw [hTakes] at hPending hWork
          refine ⟨l', ?_, ?_, ?_, ?_⟩
          · rw [← withTop_withTop e l₁ l', ← hEntry]
            rfl
          · rw [hValue, Layer.value_append]
          · rw [hPending, Layer.pending_append]
            simp
          · rw [hWork, Layer.work_append]
            rfl

/-
  Two lists with the same operations leave the same working
  copy, and the same operations pending.
-/
theorem appendAll_alike
    {κ ν : Type} [Ord κ] [Std.TransOrd κ]
    {e : Entry K V (MapDelta κ ν) (TrackedMap κ ν)}
    {l : Layer K V (MapDelta κ ν) (TrackedMap κ ν)}
    (hTop : e.top? = some l)
    {ds es : List (MapDelta κ ν)}
    (hOps :
      ds.flatMap MapDelta.ops = es.flatMap MapDelta.ops) :
    ∃ l₁ l₂ : Layer K V (MapDelta κ ν) (TrackedMap κ ν),
      e.appendAll ds = e.withTop l₁ ∧
        e.appendAll es = e.withTop l₂ ∧
        l₁.value = l.value ∧
        l₂.value = l.value ∧
        l₁.work.entries = l₂.work.entries ∧
        l₁.pending.flatMap MapDelta.ops =
          l₂.pending.flatMap MapDelta.ops := by
  rcases appendAll_eq hTop ds with
    ⟨l₁, hFirst, hValue₁, hPending₁, hWork₁⟩
  rcases appendAll_eq hTop es with
    ⟨l₂, hSecond, hValue₂, hPending₂, hWork₂⟩
  refine ⟨l₁, l₂, hFirst, hSecond, hValue₁, hValue₂, ?_, ?_⟩
  · rw [hWork₁, hWork₂]
    split
    · rfl
    · exact
        congrArg TrackedMap.entries
          (TrackedMap.foldDeltas_congr hOps l.work)
  · rw [hPending₁, hPending₂]
    split
    · rfl
    · simp only [List.flatMap_append, hOps]

end Entry

end OverlayCache

------------------------------------------------------------
-- Histories Without Replaced Values
------------------------------------------------------------

namespace OverlayCache

namespace Entry

variable {γ K V δ ω σ : Type}

/- No value is replaced, and no layer is put on top. -/
def Move.LeavesValue : Move γ K V δ σ → Prop
| .act _ a => a.KeepsValue
| .cover _ _ _ => False

variable [Repository γ K V]
variable [Delta δ ω] [Holding V σ δ]

/- A layer that stands alone goes on doing so. -/
theorem alone_moves
    (l : Layer K V δ ω)
    {ms : List (Move γ K V δ σ)}
    (hMoves : ∀ m ∈ ms, m.LeavesValue) :
    ∃ l' : Layer K V δ ω,
      (Entry.alone l).moves ms = .alone l' := by
  induction ms generalizing l with
  | nil => exact ⟨l, rfl⟩
  | cons m ms ih =>
      rcases List.forall_mem_cons.mp hMoves with
        ⟨hFirst, hRest⟩
      have hStep :
          ∃ l' : Layer K V δ ω,
            (Entry.alone l).move m = .alone l' := by
        cases m with
        | cover key value config => exact hFirst.elim
        | act s a =>
            cases a with
            | commit c version => exact ⟨_, rfl⟩
            | call c =>
                have hLevels := (Entry.alone l).levelwise_call c
                change
                  ∃ l' : Layer K V δ ω,
                    ((Entry.alone l).call c).entry = .alone l'
                generalize ((Entry.alone l).call c).entry = f
                  at hLevels
                cases hLevels with
                | alone h => exact ⟨_, rfl⟩
      rcases hStep with ⟨l', hNext⟩
      rw [moves_cons, hNext]
      exact ih l' hRest

end Entry

end OverlayCache

------------------------------------------------------------
-- Opened Entries
------------------------------------------------------------

namespace OverlayCache

namespace Entry

variable {K α δ ω : Type}
variable [Delta δ ω]

/-
  An entry that was opened for a key is a layer over a plain
  entry that has something to publish, and both levels hold
  the same handle.
-/
structure OpenedOn
    (key : K)
    (h : Handle α)
    (e : Entry K (Handle α) δ ω) : Prop where
  follows : ∃ t : Course δ, t.Follows h e
  seen :
    ∃ (s : Sight K) (known : Option Version),
      s.key = key ∧ s.Of known e
  value : e.value = some h

namespace OpenedOn

omit [Delta δ ω] in
theorem top?_eq
    {key : K}
    {h : Handle α}
    {e : Entry K (Handle α) δ ω}
    (hOpened : e.OpenedOn key h) :
    ∃ l : Layer K (Handle α) δ ω, e.top? = some l := by
  rcases hOpened.follows with ⟨t, hFollows⟩
  cases hFollows with
  | layered hBy => exact ⟨_, rfl⟩

/- What is opened on a container is like that. -/
theorem beginWrite
    [Ord K] [Std.TransOrd K] [Inhabited α]
    (o : Opener)
    (c : Container K (Handle α))
    (s : Heap α)
    (key : K) :
    ∃ h : Handle α,
      ((o.beginWrite c s key).entry :
        Entry K (Handle α) δ ω).OpenedOn key h := by
  have hSeen :=
    Sight.of_beginWrite (δ := δ) (ω := ω) o c s key
  have hWrapped :
      ∃ (h : Handle α) (p : Plain K (Handle α)),
        p.Keeps h ∧
          ((o.beginWrite c s key).entry :
            Entry K (Handle α) δ ω) = o.wrap h p := by
    unfold Opener.beginWrite
    cases c.get? key with
    | some h =>
        exact
          ⟨h, _, ⟨rfl, rfl, fun _ hNone => by cases hNone⟩,
            rfl⟩
    | none => exact ⟨_, _, .created key _, rfl⟩
  rcases hWrapped with ⟨h, p, hKeeps, hEntry⟩
  refine ⟨h, ⟨?_, ⟨_, _, rfl, hSeen⟩, ?_⟩⟩
  · rw [hEntry]
    have hFresh :
        ({} : Course δ).FollowedBy (ω := ω) h
          (.fresh p.key (some h) o.config) p :=
      .fresh hKeeps (some h) o.config
    exact ⟨_, .layered hFresh.capture⟩
  · rw [hEntry]
    rfl

variable {γ : Type} [Inhabited α] [Aggregate α δ]
variable {key : K} {h : Handle α}
variable {e : Entry K (Handle α) δ ω}

section Histories

variable [Repository γ K (Handle α)]

/- It stays so unless the value is replaced. -/
theorem act
    (hOpened : e.OpenedOn key h)
    {a : Action γ (Handle α) δ}
    (hKeeps : a.KeepsValue)
    (s : Heap α) :
    (Point.act { entry := e, store := s } a).entry.OpenedOn
      key h := by
  rcases hOpened with
    ⟨⟨t, hFollows⟩, ⟨sight, known, hKey, hOf⟩, hValue⟩
  have hStep :=
    Course.Follows.act (q := { entry := e, store := s })
      hFollows a
  refine ⟨⟨_, hStep.follows⟩, ?_, ?_⟩
  · cases a with
    | call c =>
        exact ⟨sight.call c, known, by simp [hKey], hOf.call c⟩
    | commit c version =>
        cases hOpen : sight.isOpen with
        | false =>
            rcases hOf.commit_of_closed hOpen c s version with
              ⟨_, _, hAfter⟩
            exact ⟨sight, known, hKey, hAfter⟩
        | true =>
            rcases hOf.commit_of_open hOpen c s version with
              ⟨_, _, _, hAfter⟩ | ⟨_, _, hAfter⟩
            · exact ⟨sight, _, hKey, hAfter⟩
            · exact ⟨sight.close, _, hKey, hAfter⟩
  · cases hStep.moved hKeeps with
    | kept _ _ hSame _ _ => exact hSame.trans hValue
    | undone _ hBack _ _ => exact hBack
    | absorbed _ hReplayed _ =>
        rw [(hReplayed h hValue).1, Holding.replay_handle_fst]

theorem moves
    (hOpened : e.OpenedOn key h)
    {ms : List (Move γ K (Handle α) δ (Heap α))}
    (hMoves : ∀ m ∈ ms, m.LeavesValue) :
    (e.moves ms).OpenedOn key h := by
  induction ms generalizing e with
  | nil => exact hOpened
  | cons m ms ih =>
      rcases List.forall_mem_cons.mp hMoves with
        ⟨hFirst, hRest⟩
      cases m with
      | act s a => exact ih (hOpened.act hFirst s) hRest
      | cover key value config => exact hFirst.elim

end Histories

/- Appended deltas do not replace it either. -/
theorem appendAll
    [Repository γ K (Handle α)]
    (hOpened : e.OpenedOn key h)
    (ds : List δ) :
    (e.appendAll ds).OpenedOn key h := by
  induction ds generalizing e with
  | nil => exact hOpened
  | cons d ds ih =>
      have hNext :=
        hOpened.act (γ := γ) (a := .call (.append d)) trivial
          Heap.empty
      exact ih hNext

/-
  A commit replays what is pending into the aggregate, and the
  key names that aggregate if there was something to replay.
-/
theorem commit
    [ReadableRepository γ K (Handle α)]
    (hOpened : e.OpenedOn key h)
    {l : Layer K (Handle α) δ ω}
    (hTop : e.top? = some l)
    {c : γ}
    {s : Heap α}
    {version : Option Version}
    (hOk : (e.commit c s version).result = .ok ()) :
    let o := e.commit c s version
    o.entry.value = some h ∧
      o.store.read h =
        Aggregate.absorb l.pending (s.read h) ∧
      (l.pending ≠ [] →
        ReadableRepository.get? o.container key = some h) := by
  intro o
  rcases hOpened with
    ⟨⟨t, hFollows⟩, ⟨sight, known, hKey, hOf⟩, hValue⟩
  cases hFollows with
  | @layered l' p hBy =>
      cases hTop
      rcases value_commit_of_single (l := l) rfl hValue hOk with
        ⟨hShown, hStore⟩
      rw [Holding.replay_handle_fst] at hShown
      refine ⟨hShown, ?_, ?_⟩
      · rw [hStore, Heap.read_replay, if_pos rfl]
      · intro hPending
        have hChanged : l.flags.changed = true := by
          cases hUp : l.flags.changed with
          | true => rfl
          | false =>
              rw [hBy.pending] at hPending
              exact absurd (hBy.unwritten hUp) hPending
        cases hOf with
        | layered hSeen _ hOffers _ =>
            rcases hOffers.publishes with ⟨value, hPut⟩
            rcases Plain.of_publication_put hPut with
              ⟨hPresent, hValid, _⟩
            have hGet :=
              get?_commit rfl
                (isTouched_of_isChanged
                  (e := .stacked l (.plain p)) hChanged)
                hValid hPresent hOk
            rw [hSeen, hKey, hBy.keeps.value] at hGet
            exact hGet

end OpenedOn

end Entry

end OverlayCache

------------------------------------------------------------
-- Commits Of Regrouped Deltas
------------------------------------------------------------

namespace OverlayCache

variable {K V κ ν : Type} [Ord κ] [Std.TransOrd κ]

/-
  Two maps come by some deltas and by others from one map, and
  have the same mappings.
-/
structure TrackedMap.ComeAlike
    (ds es : List (MapDelta κ ν))
    (before after after' : TrackedMap κ ν) : Prop where
  first : ComesBy ds before after
  second : ComesBy es before after'
  same : after.entries = after'.entries

/- Absorbing the same operations does the same. -/
theorem TrackedMap.comeAlike_absorb
    {ds es : List (MapDelta κ ν)}
    (hOps :
      ds.flatMap MapDelta.ops = es.flatMap MapDelta.ops)
    (m : TrackedMap κ ν) :
    ComeAlike ds es m
      (Aggregate.absorb ds m) (Aggregate.absorb es m) where
  first := comesBy_of_folded (entries_absorb ds m)
  second := comesBy_of_folded (entries_absorb es m)
  same := by
    rw [entries_absorb, entries_absorb, foldDeltas_congr hOps]

namespace Entry

/-
  The layers on top of two entries show the same mappings as
  uncommitted.
-/
structure ShowAlike
    (a b : Entry K V (MapDelta κ ν) (TrackedMap κ ν))
    (l l' : Layer K V (MapDelta κ ν) (TrackedMap κ ν)) :
    Prop where
  first : a.top? = some l
  second : b.top? = some l'
  same : l.work.entries = l'.work.entries

section Commits

variable {γ ρ : Type}
variable {ds es : List (MapDelta κ ν)}

/-
  A layer that stands alone comes to the same with the one
  list and with the other, before it is committed and after.
-/
theorem commits_alone_alike
    [Repository γ K (TrackedMap κ ν)]
    (hOps :
      ds.flatMap MapDelta.ops = es.flatMap MapDelta.ops)
    {l₀ :
      Layer K (TrackedMap κ ν) (MapDelta κ ν)
        (TrackedMap κ ν)}
    {m : TrackedMap κ ν}
    (hLive : l₀.value = some m) :
    let a := (Entry.alone l₀).appendAll ds
    let b := (Entry.alone l₀).appendAll es
    ∃ l l' :
        Layer K (TrackedMap κ ν) (MapDelta κ ν)
          (TrackedMap κ ν),
      a.ShowAlike b l l' ∧
        ∀ (c c' : γ) (version version' : Option Version),
          let o := a.commit c () version
          let o' := b.commit c' () version'
          o.result = .ok () ∧
            o'.result = .ok () ∧
            ∃ n n' : TrackedMap κ ν,
              o.entry.value = some n ∧
                o'.entry.value = some n' ∧
                TrackedMap.ComeAlike
                  l.pending l'.pending m n n' := by
  intro a b
  rcases appendAll_alike (e := .alone l₀) rfl hOps with
    ⟨l, l', hA, hB, hValue, hValue', hWork, hPending⟩
  have hAloneA : a = .alone l := hA
  have hAloneB : b = .alone l' := hB
  rw [hAloneA, hAloneB]
  refine ⟨l, l', ⟨rfl, rfl, hWork⟩, ?_⟩
  intro c c' version version' o o'
  -- Nothing below a layer that stands alone can refuse.
  have hOk : o.result = .ok () := rfl
  have hOk' : o'.result = .ok () := rfl
  have hShown :=
    (value_commit_of_single rfl (hValue.trans hLive) hOk).1
  have hShown' :=
    (value_commit_of_single rfl (hValue'.trans hLive) hOk').1
  rw [Holding.replay_value] at hShown hShown'
  exact
    ⟨hOk, hOk', _, _, hShown, hShown',
      TrackedMap.comeAlike_absorb hPending m⟩

/-
  So does an entry that was opened for a key, and the key then
  names the map that the deltas went to.
-/
theorem OpenedOn.commits_alike
    [Ord K] [Std.TransOrd K]
    [ReadableRepository ρ K (Handle (TrackedMap κ ν))]
    (hOps :
      ds.flatMap MapDelta.ops = es.flatMap MapDelta.ops)
    {key : K}
    {h : Handle (TrackedMap κ ν)}
    {e :
      Entry K (Handle (TrackedMap κ ν)) (MapDelta κ ν)
        (TrackedMap κ ν)}
    (hOpened : e.OpenedOn key h) :
    let a := e.appendAll ds
    let b := e.appendAll es
    ∃ l l' :
        Layer K (Handle (TrackedMap κ ν)) (MapDelta κ ν)
          (TrackedMap κ ν),
      a.ShowAlike b l l' ∧
        ∀ (c c' : ρ) (s : Heap (TrackedMap κ ν))
          (version version' : Option Version),
          let o := a.commit c s version
          let o' := b.commit c' s version'
          o.result = .ok () →
            o'.result = .ok () →
              o.entry.value = some h ∧
                o'.entry.value = some h ∧
                TrackedMap.ComeAlike
                  l.pending l'.pending (s.read h)
                  (o.store.read h) (o'.store.read h) ∧
                (l.pending ≠ [] →
                  ReadableRepository.get? o.container key =
                    some h) ∧
                (l'.pending ≠ [] →
                  ReadableRepository.get? o'.container key =
                    some h) := by
  intro a b
  rcases hOpened.top?_eq with ⟨l₀, hTop⟩
  rcases appendAll_alike hTop hOps with
    ⟨l, l', hA, hB, _, _, hWork, hPending⟩
  have hTopA : a.top? = some l := by
    rw [show a = e.withTop l from hA]
    exact top?_withTop hTop l
  have hTopB : b.top? = some l' := by
    rw [show b = e.withTop l' from hB]
    exact top?_withTop hTop l'
  refine ⟨l, l', ⟨hTopA, hTopB, hWork⟩, ?_⟩
  intro c c' s version version' o o' hOk hOk'
  have hOpenedA : a.OpenedOn key h :=
    hOpened.appendAll (γ := ρ) ds
  have hOpenedB : b.OpenedOn key h :=
    hOpened.appendAll (γ := ρ) es
  rcases hOpenedA.commit hTopA hOk with
    ⟨hShown, hRead, hNamed⟩
  rcases hOpenedB.commit hTopB hOk' with
    ⟨hShown', hRead', hNamed'⟩
  refine ⟨hShown, hShown', ?_, hNamed, hNamed'⟩
  rw [hRead, hRead']
  exact TrackedMap.comeAlike_absorb hPending (s.read h)

end Commits

/-
  Two lists of deltas hold the same operations in the same
  order.  After any history that leaves the value to
  transactions, one of them or the other is appended to an
  overlay over a map.

  The working copies have the same mappings then.  Once both
  overlays were committed, so have the live maps.  They are
  what the pending deltas make of the map before the commit
  when they are folded in, and what one delta with all their
  operations makes of it when it is applied or merged.

  This goes for a layer that stands alone and has a map by
  itself.  It goes as well for an entry that was opened on a
  container, whose map has a handle and may have been changed
  by others meanwhile.  If deltas were pending, the key names
  that map after the commit.
-/
theorem grouping_does_not_matter
    {γ ρ : Type}
    [Ord K] [Std.TransOrd K]
    [Repository γ K (TrackedMap κ ν)]
    [ReadableRepository ρ K (Handle (TrackedMap κ ν))]
    {ds es : List (MapDelta κ ν)}
    (hOps :
      ds.flatMap MapDelta.ops = es.flatMap MapDelta.ops) :
    (∀ (key : K) (value : Option (TrackedMap κ ν))
        (config : Config)
        (ms :
          List
            (Move γ K (TrackedMap κ ν) (MapDelta κ ν) Unit)),
      (∀ m ∈ ms, m.LeavesValue) →
        let start :
            Entry K (TrackedMap κ ν) (MapDelta κ ν)
              (TrackedMap κ ν) :=
          .alone (.fresh key value config)
        let e := start.moves ms
        let a := e.appendAll ds
        let b := e.appendAll es
        ∀ m : TrackedMap κ ν,
          e.value = some m →
            ∃ l l' :
                Layer K (TrackedMap κ ν) (MapDelta κ ν)
                  (TrackedMap κ ν),
              a.ShowAlike b l l' ∧
                ∀ (c c' : γ) (version version' : Option Version),
                  let o := a.commit c () version
                  let o' := b.commit c' () version'
                  o.result = .ok () ∧
                    o'.result = .ok () ∧
                    ∃ n n' : TrackedMap κ ν,
                      o.entry.value = some n ∧
                        o'.entry.value = some n' ∧
                        TrackedMap.ComeAlike
                          l.pending l'.pending m n n') ∧
      ∀ (opener : Opener)
        (c₀ : Container K (Handle (TrackedMap κ ν)))
        (s₀ : Heap (TrackedMap κ ν))
        (key : K)
        (ms :
          List
            (Move ρ K (Handle (TrackedMap κ ν))
              (MapDelta κ ν) (Heap (TrackedMap κ ν)))),
        (∀ m ∈ ms, m.LeavesValue) →
          let start :
              Entry K (Handle (TrackedMap κ ν)) (MapDelta κ ν)
                (TrackedMap κ ν) :=
            (opener.beginWrite c₀ s₀ key).entry
          let e := start.moves ms
          let a := e.appendAll ds
          let b := e.appendAll es
          ∃ (h : Handle (TrackedMap κ ν))
              (l l' :
                Layer K (Handle (TrackedMap κ ν))
                  (MapDelta κ ν) (TrackedMap κ ν)),
            e.value = some h ∧
              a.ShowAlike b l l' ∧
              ∀ (c c' : ρ) (s : Heap (TrackedMap κ ν))
                (version version' : Option Version),
                let o := a.commit c s version
                let o' := b.commit c' s version'
                o.result = .ok () →
                  o'.result = .ok () →
                    o.entry.value = some h ∧
                      o'.entry.value = some h ∧
                      TrackedMap.ComeAlike
                        l.pending l'.pending (s.read h)
                        (o.store.read h) (o'.store.read h) ∧
                      (l.pending ≠ [] →
                        ReadableRepository.get?
                            o.container key =
                          some h) ∧
                      (l'.pending ≠ [] →
                        ReadableRepository.get?
                            o'.container key =
                          some h) := by
  refine ⟨?_, ?_⟩
  · intro key value config ms hMoves start e a b m hValue
    rcases alone_moves (.fresh key value config) hMoves with
      ⟨l₀, hAlone⟩
    have hEntry : e = .alone l₀ := hAlone
    have hLive : l₀.value = some m := by
      rw [hEntry] at hValue
      exact hValue
    simp only [a, b, hEntry]
    exact commits_alone_alike hOps hLive
  · intro opener c₀ s₀ key ms hMoves start e a b
    have hStart :
        ∃ h : Handle (TrackedMap κ ν), start.OpenedOn key h :=
      OpenedOn.beginWrite opener c₀ s₀ key
    rcases hStart with ⟨h, hStart⟩
    have hOpened : e.OpenedOn key h := hStart.moves hMoves
    rcases hOpened.commits_alike (ρ := ρ) hOps with
      ⟨l, l', hShow, hCommits⟩
    exact ⟨h, l, l', hOpened.value, hShow, hCommits⟩

/-
  A layer has committed a delta and has another one pending,
  when a map is cleared in the second of three deltas, or of
  two.  A key that is new to a container is written to in the
  same way, after its map was changed through the handle.
-/
theorem grouping_does_not_matter_cleared :
    let m : TrackedMap Nat Nat := .ofList [(1, 10)]
    let ds : List (MapDelta Nat Nat) :=
      [⟨[.put 3 30, .clear]⟩, ⟨[]⟩, ⟨[.remove 5, .put 4 40]⟩]
    let es : List (MapDelta Nat Nat) :=
      [⟨[.put 3 30]⟩, ⟨[.clear, .remove 5, .put 4 40]⟩]
    let past :
        List
          (Move (Container Nat (TrackedMap Nat Nat)) Nat
            (TrackedMap Nat Nat) (MapDelta Nat Nat) Unit) :=
      [.act () (.call (.append ⟨[.put 2 20]⟩)),
        .act () (.commit (.empty none) none),
        .act () (.call (.append ⟨[.put 5 50]⟩))]
    let start :
        Entry Nat (TrackedMap Nat Nat) (MapDelta Nat Nat)
          (TrackedMap Nat Nat) :=
      .alone (.fresh 1 (some m) {})
    let e := start.moves past
    let c : Container Nat (TrackedMap Nat Nat) := .empty none
    let o := (e.appendAll ds).commit c () none
    let o' := (e.appendAll es).commit c () none
    let h : Handle (TrackedMap Nat Nat) := ⟨0⟩
    let d : Container Nat (Handle (TrackedMap Nat Nat)) :=
      .empty none
    let opened :
        Entry Nat (Handle (TrackedMap Nat Nat))
          (MapDelta Nat Nat) (TrackedMap Nat Nat) :=
      (Opener.beginWrite {} d .empty 1).entry
    let s : Heap (TrackedMap Nat Nat) :=
      Heap.empty.write h (.ofList [(7, 70)])
    let p := (opened.appendAll ds).commit d s none
    let p' := (opened.appendAll es).commit d s none
    (∃ n n' : TrackedMap Nat Nat,
      o.entry.value = some n ∧
        o'.entry.value = some n' ∧
        n.entries = n'.entries ∧
        n.toList = [(4, 40)]) ∧
      (p.store.read h).entries = (p'.store.read h).entries ∧
      (p.store.read h).toList = [(4, 40)] ∧
      ReadableRepository.get? p.container 1 = some h ∧
      ReadableRepository.get? p'.container 1 = some h := by
  intro m ds es past start e c o o' h d opened s p p'
  have hOps :
      ds.flatMap MapDelta.ops = es.flatMap MapDelta.ops := rfl
  rcases grouping_does_not_matter (K := Nat)
      (γ := Container Nat (TrackedMap Nat Nat))
      (ρ := Container Nat (Handle (TrackedMap Nat Nat)))
      hOps with
    ⟨hAlone, hOpened⟩
  have hPast : ∀ q ∈ past, q.LeavesValue := by
    simp [past, Move.LeavesValue, Action.KeepsValue,
      Call.KeepsValue]
  rcases hAlone 1 (some m) {} past hPast _ rfl with
    ⟨l, l', hShow, hCommits⟩
  rcases hCommits c c none none with
    ⟨_, _, n, n', hShown, hShown', hCome⟩
  rcases hOpened {} d .empty 1 [] (by simp) with
    ⟨g, k, k', hHeld, hShowOpened, hCommitsOpened⟩
  have hHandle : g = h := by
    cases hHeld
    rfl
  subst hHandle
  rcases hCommitsOpened d d s none none rfl rfl with
    ⟨_, _, hComeOpened, hNamed, hNamed'⟩
  have hPending : k.pending = ds := by
    cases hShowOpened.first
    rfl
  have hPending' : k'.pending = es := by
    cases hShowOpened.second
    rfl
  refine
    ⟨⟨n, n', hShown, hShown', hCome.same, ?_⟩,
      hComeOpened.same, ?_, hNamed ?_, hNamed' ?_⟩
  · have hLayer : l.pending = ⟨[.put 5 50]⟩ :: ds := by
      cases hShow.first
      rfl
    have hFolded := hCome.first.folded
    rw [hLayer] at hFolded
    change n.entries.toList = _
    rw [hFolded]
    decide
  · have hFolded :
        (p.store.read h).entries =
          ((s.read h).foldDeltas k.pending).entries :=
      hComeOpened.first.folded
    rw [hPending] at hFolded
    change (p.store.read h).entries.toList = _
    rw [hFolded]
    decide
  · rw [hPending]
    simp [ds]
  · rw [hPending']
    simp [es]

end Entry

end OverlayCache
