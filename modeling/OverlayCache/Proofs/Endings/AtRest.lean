import OverlayCache.Proofs.Commit.Refused
import OverlayCache.Proofs.Endings.Captured

/-
  Entries after their transactions.

  A commit that takes effect and a rollback leave every level
  of an entry at rest.  An entry at rest has nothing to make
  durable and nothing to undo.  So commits of it go through
  whatever the repository says, and neither they nor rollbacks
  alter more than the flags of layers.

  Key definitions include:
    * `Layer.AtRest`
    * `Entry.AtRest`
    * `Entry.resetLayers`
    * `Entry.Action.Ends`

  The main statements are:
    * `Entry.AtRest.commit`
    * `Entry.Unused.atRest_rollback`
    * `Entry.Unused.atRest_commit`
    * `Entry.Point.run_of_atRest`
    * `Entry.endings_are_final`
-/

------------------------------------------------------------
-- Layers At Rest
------------------------------------------------------------

namespace OverlayCache

namespace Layer

variable {K V δ ω : Type} [Delta δ ω]

/- No transaction is on its way, and nothing is held back. -/
structure AtRest (l : Layer K V δ ω) : Prop where
  unchanged : l.flags.changed = false
  pending : l.pending = []
  work : l.work = Delta.blank δ
  snapshot : l.snapshot = none

theorem atRest_reset (l : Layer K V δ ω) : l.reset.AtRest :=
  ⟨rfl, rfl, rfl, rfl⟩

/- A coherent layer is at rest unless it was written to. -/
theorem Coherent.atRest
    {l : Layer K V δ ω}
    (h : l.Coherent)
    (hUnchanged : l.flags.changed = false) :
    l.AtRest where
  unchanged := hUnchanged
  pending := h.pending hUnchanged
  work := by
    rw [h.work, h.pending hUnchanged]
    rfl
  snapshot := h.snapshot hUnchanged

theorem Coherent.atRest_discard
    {l : Layer K V δ ω}
    (h : l.Coherent)
    (value : Option V) :
    (l.discard value).1.AtRest := by
  unfold discard
  cases hChanged : l.flags.changed with
  | true => exact atRest_reset _
  | false => exact h.atRest hChanged

namespace AtRest

variable {l : Layer K V δ ω}

/- There is nothing to drop. -/
theorem discard (h : l.AtRest) (value : Option V) :
    l.discard value = (l, []) := by
  simp [Layer.discard, h.unchanged]

/- There is nothing to replay either. -/
theorem replay
    {σ : Type} [Holding V σ δ]
    (h : l.AtRest)
    (s : σ) :
    l.replay s =
      { layer := l.reset, store := s, events := [] } := by
  unfold Layer.replay
  cases hValue : l.value with
  | none => rfl
  | some v =>
      simp [h.pending, Holding.replay, Layer.reset, hValue]

end AtRest

end Layer

end OverlayCache

------------------------------------------------------------
-- Entries At Rest
------------------------------------------------------------

namespace OverlayCache

namespace Entry

variable {γ K V δ ω σ : Type} [Delta δ ω]

/- No level was written to, and none holds anything back. -/
inductive AtRest : Entry K V δ ω → Prop
| plain
    {p : Plain K V}
    (h : p.AtRest) :
    AtRest (.plain p)
| alone
    {l : Layer K V δ ω}
    (h : l.AtRest) :
    AtRest (.alone l)
| stacked
    {l : Layer K V δ ω}
    {below : Entry K V δ ω}
    (h : l.AtRest)
    (hBelow : AtRest below) :
    AtRest (.stacked l below)

/- Reset every layer. -/
def resetLayers : Entry K V δ ω → Entry K V δ ω
| .plain p => .plain p
| .alone l => .alone l.reset
| .stacked l below => .stacked l.reset below.resetLayers

theorem resetLayers_resetLayers (e : Entry K V δ ω) :
    e.resetLayers.resetLayers = e.resetLayers := by
  induction e with
  | plain p => rfl
  | alone l => rfl
  | stacked l below ih =>
      simp only [resetLayers, ih]
      rfl

/- Layers that are reset already stay as they are. -/
theorem resetLayers_eq_self
    {e : Entry K V δ ω}
    (h : ∀ l ∈ e.layers, l.reset = l) :
    e.resetLayers = e := by
  induction e with
  | plain p => rfl
  | alone l =>
      exact congrArg Entry.alone (h l (by simp [layers]))
  | stacked l below ih =>
      have hBelow : below.resetLayers = below := by
        apply ih
        intro m hMem
        exact h m (by simp [layers, hMem])
      simp only [resetLayers, hBelow]
      rw [h l (by simp [layers])]

/- The version is kept at the bottom, which has no layers. -/
theorem version_resetLayers (e : Entry K V δ ω) :
    e.resetLayers.bottom.version = e.bottom.version := by
  induction e with
  | plain p => rfl
  | alone l => rfl
  | stacked l below ih => exact ih

/- An entry is at rest if its layers and its bottom are. -/
theorem atRest_of_levels
    {e : Entry K V δ ω}
    (hLayers : ∀ l ∈ e.layers, l.AtRest)
    (hBottom :
      ∀ p : Plain K V, e.bottom = .plain p → p.AtRest) :
    e.AtRest := by
  induction e with
  | plain p => exact .plain (hBottom p rfl)
  | alone l => exact .alone (hLayers l (by simp [layers]))
  | stacked l below ih =>
      refine .stacked (hLayers l (by simp [layers])) ?_
      apply ih _ hBottom
      intro m hMem
      exact hLayers m (by simp [layers, hMem])

namespace AtRest

variable {e : Entry K V δ ω}

theorem resetLayers (h : e.AtRest) : e.resetLayers.AtRest := by
  induction h with
  | plain h => exact .plain h
  | alone h => exact .alone (Layer.atRest_reset _)
  | stacked h hBelow ih =>
      exact .stacked (Layer.atRest_reset _) ih

/- To reset its layers concerns no more than their flags. -/
theorem contents_resetLayers (h : e.AtRest) :
    e.resetLayers.contents = e.contents := by
  induction h with
  | plain h => rfl
  | alone h =>
      simp [Entry.resetLayers, contents, Layer.reset,
        h.pending, h.work]
  | stacked h hBelow ih =>
      simp [Entry.resetLayers, contents, Layer.reset,
        h.pending, h.work, ih]

/- There is nothing to undo. -/
theorem rollback (h : e.AtRest) : e.rollback = (e, []) := by
  induction h with
  | plain h => simp [Entry.rollback, h.rollback]
  | alone h => simp [Entry.rollback, h.discard]
  | stacked h hBelow ih =>
      simp [Entry.rollback, ih, h.discard]

/- There is nothing to prepare for a commit. -/
theorem ready (h : e.AtRest) : e.ready = (e, []) := by
  induction h with
  | plain h => rfl
  | alone h => rfl
  | stacked h hBelow ih =>
      simp [Entry.ready, h.unchanged, ih]

variable [Repository γ K V] [Holding V σ δ]

theorem settle
    (h : e.AtRest)
    (version : Option Version)
    (c : γ)
    (s : σ) :
    e.settle version c s =
      { entry := e.resetLayers
        container := c
        store := s
        events := []
        result := .ok () } := by
  induction h with
  | plain h =>
      simp [Entry.settle, Entry.resetLayers,
        Plain.commit_of_unchanged h.unchanged]
  | alone h => simp [Entry.settle, h.replay, Entry.resetLayers]
  | stacked h hBelow ih =>
      simp [Entry.settle, ih, h.replay, Entry.resetLayers]

/-
  A commit goes through and asks nothing of the repository,
  whatever that would have answered.
-/
theorem commit
    (h : e.AtRest)
    (c : γ)
    (s : σ)
    (version : Option Version) :
    e.commit c s version =
      { entry := e.resetLayers
        container := c
        store := s
        events := []
        result := .ok () } := by
  simp [Entry.commit, h.ready, h.settle]

end AtRest

end Entry

end OverlayCache

------------------------------------------------------------
-- Ends Of Transactions
------------------------------------------------------------

namespace OverlayCache

namespace Entry

variable {γ K V δ ω σ : Type}

/- What is related to a layer of another entry. -/
theorem Levelwise.exists_of_mem
    {R : Layer K V δ ω → Layer K V δ ω → Prop}
    {e f : Entry K V δ ω}
    (h : e.Levelwise R f)
    {m : Layer K V δ ω}
    (hMem : m ∈ f.layers) :
    ∃ l ∈ e.layers, R l m := by
  induction h with
  | plain p q => cases hMem
  | alone h =>
      rw [layers, List.mem_singleton] at hMem
      subst hMem
      exact ⟨_, List.mem_singleton_self _, h⟩
  | stacked h hBelow ih =>
      simp only [layers, List.mem_append,
        List.mem_singleton] at hMem ⊢
      rcases hMem with hInner | rfl
      · rcases ih hInner with ⟨l, hLayer, hRelated⟩
        exact ⟨l, Or.inl hLayer, hRelated⟩
      · exact ⟨_, Or.inr rfl, h⟩

variable [Delta δ ω]

/- A rollback leaves coherent levels at rest. -/
theorem atRest_rollback
    {e : Entry K V δ ω}
    (hLayers : ∀ l ∈ e.layers, l.Coherent)
    (hBottom : e.SoundBottom) :
    e.rollback.1.AtRest := by
  induction e with
  | plain p => exact .plain (hBottom p rfl).atRest_rollback
  | alone l =>
      have hLayer := hLayers l (by simp [layers])
      exact .alone (hLayer.atRest_discard _)
  | stacked l below ih =>
      have hLayer := hLayers l (by simp [layers])
      refine .stacked (hLayer.atRest_discard _) ?_
      apply ih _ hBottom
      intro m hMem
      exact hLayers m (by simp [layers, hMem])

variable [Repository γ K V] [Holding V σ δ]

/- An accepted commit resets every layer. -/
theorem reset_of_mem_commit
    {e : Entry K V δ ω}
    {c : γ}
    {s : σ}
    {version : Option Version}
    (hOk : (e.commit c s version).result = .ok ())
    {l : Layer K V δ ω}
    (hMem : l ∈ (e.commit c s version).entry.layers) :
    l.reset = l := by
  have hSettled := e.ready.1.levelwise_settle version c s
  rcases (hSettled.1 hOk).exists_of_mem hMem with
    ⟨m, _, value, rfl⟩
  rfl

namespace Unused

variable {start : Entry K V δ ω}

/- Whatever happened, a rollback leaves every level at rest. -/
theorem atRest_rollback
    (h : start.Unused)
    (past : List (Move γ K V δ σ)) :
    (start.moves past).rollback.1.AtRest := by
  apply Entry.atRest_rollback
  · exact coherent_moves h.bare.coherent past
  · exact h.soundBottom.moves past

/- So does a commit that is accepted. -/
theorem atRest_commit
    (h : start.Unused)
    {past : List (Move γ K V δ σ)}
    {c : γ}
    {s : σ}
    {version : Option Version}
    (hOk :
      ((start.moves past).commit c s version).result =
        .ok ()) :
    ((start.moves past).commit c s version).entry.AtRest := by
  apply atRest_of_levels
  · intro l hMem
    rw [← reset_of_mem_commit hOk hMem]
    exact l.atRest_reset
  · intro q hEnd
    have hLevels :=
      (start.moves past).levelwise_commit c s version
    rcases hLevels.bottom_plain hEnd with ⟨p, hBottom⟩
    rcases bottom_commit_of_ok hBottom
        (h.coherent_bottom hBottom) hOk with
      ⟨q', hEnd', hRest⟩
    cases hEnd.symm.trans hEnd'
    exact hRest

end Unused

end Entry

end OverlayCache

------------------------------------------------------------
-- Ends That Are Final
------------------------------------------------------------

namespace OverlayCache

namespace Entry

variable {γ K V δ ω σ : Type}

/- The actions that are meant to end a transaction. -/
def Action.Ends : Action γ V δ → Prop
| .call .rollback => True
| .commit _ _ => True
| _ => False

variable [Repository γ K V]
variable [Delta δ ω] [Holding V σ δ]

namespace Point

/- An entry at rest may have its layers reset, no more. -/
theorem act_of_atRest
    {p : Point K V δ ω σ}
    (hRest : p.entry.AtRest)
    {a : Action γ V δ}
    (hEnds : a.Ends) :
    (p.act a).store = p.store ∧
      ((p.act a).entry = p.entry ∨
        (p.act a).entry = p.entry.resetLayers) := by
  cases a with
  | commit c version =>
      simp [act, hRest.commit]
  | call c =>
      cases c with
      | rollback =>
          simp [act, call, hRest.rollback]
      | _ => exact hEnds.elim

/-
  That is all that becomes of it in the end.  On the way every
  commit goes through and leaves its container alone.
-/
theorem run_of_atRest
    {p : Point K V δ ω σ}
    (hRest : p.entry.AtRest)
    {ends : List (Action γ V δ)}
    (hEnds : ∀ a ∈ ends, a.Ends) :
    Action.OfEveryCommit ends
        (fun before c version =>
          let o := p.outcome before c version
          o.result = .ok () ∧ o.container = c) ∧
      (p.run ends).store = p.store ∧
      ((p.run ends).entry = p.entry ∨
        (p.run ends).entry = p.entry.resetLayers) := by
  induction ends generalizing p with
  | nil =>
      exact ⟨Action.ofEveryCommit_nil _, rfl, Or.inl rfl⟩
  | cons a ends ih =>
      rcases List.forall_mem_cons.mp hEnds with
        ⟨hFirst, hLater⟩
      rcases act_of_atRest hRest hFirst with ⟨hStore, hEntry⟩
      have hStill : (p.act a).entry.AtRest := by
        rcases hEntry with hSame | hReset
        · rw [hSame]
          exact hRest
        · rw [hReset]
          exact hRest.resetLayers
      rcases ih hStill hLater with
        ⟨hCommits, hLastStore, hLastEntry⟩
      refine ⟨?_, hLastStore.trans hStore, ?_⟩
      · rw [Action.ofEveryCommit_cons]
        refine ⟨?_, hCommits⟩
        intro c version hEq
        simp [outcome, hRest.commit]
      · rw [run_cons]
        rcases hEntry with hSame | hReset
        · rw [hSame] at hLastEntry
          exact hLastEntry
        · rw [hReset, resetLayers_resetLayers,
            or_self] at hLastEntry
          exact Or.inr hLastEntry

end Point

/-
  Whatever happened to an entry, once it is rolled back or its
  commit takes effect, every level is at rest.

  Any commits and rollbacks that follow, on repositories that
  would refuse or at other versions too, go through.  No
  repository changes, nor what lies behind the values, and
  each level holds what it held, at the version it had.  After
  a commit the entry is the same altogether.
-/
theorem endings_are_final
    {start : Entry K V δ ω}
    (hUnused : start.Unused)
    {past : List (Move γ K V δ σ)}
    {p : Point K V δ ω σ}
    (hPast : p.entry = start.moves past)
    {a : Action γ V δ}
    (hEnds : a.Ends)
    (hDone : (p.act a).reply = .done) :
    let q := p.act a
    q.entry.AtRest ∧
      ∀ ends : List (Action γ V δ),
        (∀ b ∈ ends, b.Ends) →
          Action.OfEveryCommit ends
              (fun before c version =>
                let o := q.outcome before c version
                o.result = .ok () ∧ o.container = c) ∧
            let r := q.run ends
            r.store = q.store ∧
              r.entry.AtRest ∧
              r.entry.contents = q.entry.contents ∧
              r.entry.bottom.version =
                q.entry.bottom.version ∧
              (a ≠ .call .rollback → r.entry = q.entry) := by
  intro q
  have hLanded :
      q.entry.AtRest ∧
        (a ≠ .call .rollback →
          q.entry.resetLayers = q.entry) := by
    cases a with
    | commit c version =>
        have hOk :
            (p.entry.commit c p.store version).result =
              .ok () := by
          simp only [Point.act] at hDone
          split at hDone
          · assumption
          · cases hDone
        refine ⟨?_, fun _ => ?_⟩
        · simp only [q, Point.act]
          rw [hPast] at hOk ⊢
          exact hUnused.atRest_commit hOk
        · apply resetLayers_eq_self
          intro l hMem
          exact reset_of_mem_commit hOk hMem
    | call c =>
        cases c with
        | rollback =>
            refine ⟨?_, fun hNe => absurd rfl hNe⟩
            simp only [q, Point.act, call, hPast]
            exact hUnused.atRest_rollback past
        | _ => exact hEnds.elim
  rcases hLanded with ⟨hRest, hReset⟩
  refine ⟨hRest, ?_⟩
  intro ends hLater
  rcases Point.run_of_atRest hRest hLater with
    ⟨hCommits, hStore, hEntry⟩
  refine ⟨hCommits, hStore, ?_⟩
  rcases hEntry with hSame | hSame
  · rw [hSame]
    exact ⟨hRest, rfl, rfl, fun _ => rfl⟩
  · rw [hSame]
    exact
      ⟨hRest.resetLayers, hRest.contents_resetLayers,
        q.entry.version_resetLayers, hReset⟩

/-
  A closed container refuses two layers over a key that is
  being created, and another container takes them.  Later
  commits go through on the closed container and on a full
  one, at another version too.
-/
theorem commits_after_creation :
    let start : Entry Nat Counter CounterDelta Int64 :=
      .plain (.created 1 ⟨5, 0⟩)
    let closed : Container Nat Counter :=
      Container.close (.empty none)
    let full : Container Nat Counter := .empty (some 0)
    let past : List
        (Move (Container Nat Counter) Nat Counter
          CounterDelta Unit) :=
      [.cover 1 (some ⟨5, 0⟩) {},
        .cover 1 (some ⟨5, 0⟩) {},
        .act () (.call (.append (.add 2))),
        .act () (.commit closed (some ⟨7⟩))]
    let p : Point Nat Counter CounterDelta Int64 Unit :=
      { entry := start.moves past, store := () }
    let a : Action (Container Nat Counter) Counter
        CounterDelta :=
      .commit (.empty none) none
    let q := p.act a
    let ends : List
        (Action (Container Nat Counter) Counter
          CounterDelta) :=
      [.commit closed (some ⟨9⟩), .call .rollback,
        .commit full none]
    q.entry.value = some ⟨7, 1⟩ ∧
      q.entry.bottom.version = some ⟨7⟩ ∧
      (q.outcome [] closed (some ⟨9⟩)).result = .ok () ∧
      (q.outcome (ends.take 2) full none).container = full ∧
      (q.run ends).entry = q.entry := by
  intro start closed full past p a q ends
  have hUnused : start.Unused := .plain ⟨rfl, rfl⟩
  have hEnds : ∀ b ∈ ends, b.Ends := by
    simp [ends, Action.Ends]
  have hPast : p.entry = start.moves past := rfl
  rcases endings_are_final hUnused hPast (a := a) trivial
      rfl with
    ⟨_, hFinal⟩
  rcases hFinal ends hEnds with ⟨hCommits, _, _, _, _, hSame⟩
  have hFirst := hCommits [] closed (some ⟨9⟩) (by simp [ends])
  have hLast :=
    hCommits (ends.take 2) full none List.prefix_rfl
  exact ⟨rfl, rfl, hFirst.1, hLast.2, hSame nofun⟩

end Entry

end OverlayCache
