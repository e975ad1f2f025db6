import OverlayCache.Proofs.Ledger.Holder

/-
  Caches agree with the ledgers of their runs.

  The container holds under each key the handle of the line
  that the key shows, the heap holds the value of each line,
  and each kept entry follows its tab.  Every step that does
  not replace a live value preserves the agreement, so a run
  in any interleaving commits what its ledger says.

  Key definitions include:
    * `Cache.Step.KeepsValues`
    * `Cache.Agrees`

  The main statements are:
    * `Cache.Agrees.step`
    * `Cache.Agrees.run`
    * `Cache.committed?_run`
-/

------------------------------------------------------------
-- Values Of Lines
------------------------------------------------------------

namespace OverlayCache

namespace Ledger

variable {K α δ : Type} [Inhabited α] [Aggregate α δ]

/- A posting is absorbed by its own line only. -/
theorem valueOf_post
    (g : Ledger K α δ)
    (p : Posting K δ)
    (line : Nat) :
    (g.post p).valueOf line =
      if line = p.line then
        Aggregate.absorb p.deltas (g.valueOf line)
      else
        g.valueOf line := by
  unfold valueOf postingsIn
  by_cases hEq : line = p.line
  · simp [post, originOf, hEq]
  · have hNe : ¬ p.line = line := fun h => hEq h.symm
    simp [post, originOf, hEq, hNe]

/- A new line leaves the origins of the others alone. -/
omit [Aggregate α δ] in
theorem originOf_beginLine
    (g : Ledger K α δ)
    (key : K)
    (a : α)
    {line : Nat}
    (hLine : line < g.lines.length) :
    (g.beginLine key a).originOf line =
      g.originOf line := by
  simp [originOf, beginLine,
    List.getElem?_append_left hLine]

omit [Aggregate α δ] in
theorem originOf_beginLine_new
    (g : Ledger K α δ)
    (key : K)
    (a : α) :
    (g.beginLine key a).originOf g.lines.length = a := by
  simp [originOf, beginLine]

/- A new line leaves the others alone. -/
theorem valueOf_beginLine
    (g : Ledger K α δ)
    (key : K)
    (a : α)
    {line : Nat}
    (hLine : line < g.lines.length) :
    (g.beginLine key a).valueOf line = g.valueOf line := by
  unfold valueOf
  rw [originOf_beginLine g key a hLine]
  rfl

/- Nothing was posted in a new line. -/
theorem valueOf_beginLine_new
    {g : Ledger K α δ}
    (h : g.Sound)
    (key : K)
    (a : α) :
    (g.beginLine key a).valueOf g.lines.length = a := by
  have hNone :
      (g.beginLine key a).postingsIn g.lines.length =
        [] := by
    apply List.filter_eq_nil_iff.mpr
    intro p hMem
    have hLt := lt_length_of_keyOf? (h.postings p hMem)
    simp only [decide_eq_true_eq]
    omega
  unfold valueOf
  rw [hNone]
  exact originOf_beginLine_new g key a

end Ledger

end OverlayCache

------------------------------------------------------------
-- Values Of Lines Of Maps
------------------------------------------------------------

namespace OverlayCache

namespace Ledger

variable {K κ ν : Type} [Ord κ] [Std.TransOrd κ]

/- A map without recorded changes folds what is posted. -/
theorem foldl_absorb_of_clean
    {m : TrackedMap κ ν}
    (hClean : m.changes = [])
    (ps : List (Posting K (MapDelta κ ν))) :
    ps.foldl (fun a p => Aggregate.absorb p.deltas a) m =
      m.foldDeltas (ps.flatMap Posting.deltas) := by
  induction ps generalizing m with
  | nil => rfl
  | cons p ps ih =>
      have hFolded : (m.foldDeltas p.deltas).changes = [] :=
        (m.changes_foldDeltas p.deltas).trans hClean
      rw [List.foldl_cons, List.flatMap_cons,
        TrackedMap.foldDeltas_append,
        TrackedMap.absorb_of_clean hClean]
      exact ih hFolded

/- So does a line that began with such a map. -/
theorem valueOf_of_clean
    {g : Ledger K (TrackedMap κ ν) (MapDelta κ ν)}
    {line : Nat}
    (hClean : (g.originOf line).changes = []) :
    g.valueOf line =
      (g.originOf line).foldDeltas (g.deltasIn line) :=
  foldl_absorb_of_clean hClean (g.postingsIn line)

end Ledger

end OverlayCache

------------------------------------------------------------
-- Agreement
------------------------------------------------------------

namespace OverlayCache

namespace Cache

/- The steps that leave live values to transactions. -/
def Step.KeepsValues {K α δ : Type} :
    Step K α δ → Prop
| .call _ c => c.KeepsValue
| _ => True

variable {K α δ ω : Type}
variable [Ord K] [Std.TransOrd K] [DecidableEq K]
variable [Inhabited α] [Aggregate α δ]

/- What a cache holds is what a ledger tells. -/
structure Agrees
    (cache : Cache K α δ ω)
    (g : Ledger K α δ) : Prop where
  unlimited : cache.container.limit = none
  unclosed : cache.container.closed = false
  sound : g.Sound
  next : cache.store.next = g.lines.length
  shown :
    ∀ key : K,
      cache.container.get? key =
        (g.shown key).map Handle.mk
  values :
    ∀ {line : Nat},
      line < g.lines.length →
        cache.store.read ⟨line⟩ = g.valueOf line
  tabs :
    ∀ name : String,
      (g.tabs name = none ∧ cache.entry? name = none) ∨
        ∃ t e,
          g.tabs name = some t ∧
            cache.entry? name = some e ∧
            t.Kept e

omit [DecidableEq K] in
theorem agrees_withConfig (config : Config) :
    (withConfig config : Cache K α δ ω).Agrees .empty where
  unlimited := rfl
  unclosed := rfl
  sound := Ledger.sound_empty
  next := rfl
  shown key := Container.get?_empty none key
  values hLine := by simp [Ledger.empty] at hLine
  tabs name := Or.inl ⟨rfl, entry?_withConfig config name⟩

namespace Agrees

variable {cache : Cache K α δ ω}
variable {g : Ledger K α δ}

/- Keep an entry together with its tab. -/
omit [DecidableEq K] in
theorem keep
    (h : cache.Agrees g)
    {t : Tab K δ}
    {e : Entry K (Handle α) δ ω}
    (hKept : t.Kept e)
    (hLine : g.keyOf? t.line = some t.key)
    (name : String) :
    (cache.keep name e).Agrees (g.keep name t) where
  unlimited := h.unlimited
  unclosed := h.unclosed
  sound := h.sound.keep hLine name
  next := h.next
  shown := h.shown
  values := h.values
  tabs other := by
    rw [entry?_keep]
    by_cases hEq : other = name
    · right
      refine ⟨t, e, ?_, ?_, hKept⟩
      · simp [Ledger.keep, hEq]
      · simp [hEq]
    · simpa [Ledger.keep, hEq] using h.tabs other

/- Begin a line with a new aggregate. -/
omit [DecidableEq K] in
theorem alloc
    (h : cache.Agrees g)
    (key : K)
    (a : α) :
    { cache with
      store := (cache.store.alloc a).2 }.Agrees
        (g.beginLine key a) where
  unlimited := h.unlimited
  unclosed := h.unclosed
  sound := h.sound.beginLine key a
  next := by simp [Ledger.beginLine, h.next]
  shown := h.shown
  values {line} hLine := by
    have hLe : line ≤ g.lines.length := by
      simp only [Ledger.beginLine, List.length_append,
        List.length_singleton] at hLine
      omega
    by_cases hEq : line = g.lines.length
    · subst hEq
      rw [Ledger.valueOf_beginLine_new h.sound key a,
        ← h.next]
      exact Heap.read_alloc cache.store a
    · have hLt : line < g.lines.length := by omega
      rw [Ledger.valueOf_beginLine g key a hLt,
        ← h.values hLt]
      apply Heap.read_alloc_of_ne
      rw [h.next]
      exact hEq
  tabs := h.tabs

/- Store the handle of a line under a key. -/
theorem publish
    [Std.LawfulEqOrd K]
    (h : cache.Agrees g)
    {line : Nat}
    {key : K}
    (hLine : g.keyOf? line = some key)
    (version : Option Version) :
    { cache with
      container :=
        { cache.container with
          entries :=
            cache.container.entries.insert key
              ⟨⟨line⟩, version⟩ } }.Agrees
        (g.showLine key line) where
  unlimited := h.unlimited
  unclosed := h.unclosed
  sound := h.sound.showLine hLine
  next := h.next
  shown k := by
    rw [Container.get?_insert]
    by_cases hEq : k = key
    · simp [Ledger.showLine, hEq]
    · simpa [Ledger.showLine, hEq] using h.shown k
  values := h.values
  tabs := h.tabs

/- Replay the deltas of a posting into its line. -/
omit [DecidableEq K] in
theorem post
    (h : cache.Agrees g)
    {p : Posting K δ}
    (hLine : g.keyOf? p.line = some p.key) :
    { cache with
      store :=
        (Holding.replay p.deltas
          (⟨p.line⟩ : Handle α) cache.store).2 }.Agrees
        (g.post p) where
  unlimited := h.unlimited
  unclosed := h.unclosed
  sound := h.sound.post hLine
  next := by
    rw [Heap.next_replay]
    exact h.next
  shown := h.shown
  values {line} hLt := by
    rw [Heap.read_replay, Ledger.valueOf_post]
    have hOld : line < g.lines.length := hLt
    by_cases hEq : line = p.line
    · rw [hEq] at hOld
      simp [hEq, h.values hOld]
    · simp [hEq, h.values hOld]
  tabs := h.tabs

end Agrees

end Cache

end OverlayCache

------------------------------------------------------------
-- Agreement Along Runs
------------------------------------------------------------

namespace OverlayCache

namespace Cache

variable {K α δ ω : Type}
variable [Ord K] [Std.TransOrd K]
variable [Std.LawfulEqOrd K] [DecidableEq K]
variable [Inhabited α] [Delta δ ω] [Aggregate α δ]

namespace Agrees

variable {cache : Cache K α δ ω}
variable {g : Ledger K α δ}

/- An unbounded open container takes every seed. -/
omit [Delta δ ω] in
theorem seed
    (h : cache.Agrees g)
    (key : K)
    (a : α) :
    (cache.seed key a).cache.Agrees
      ((g.beginLine key a).showLine key g.lines.length) := by
  have hTaken :=
    Container.refusal?_of_open h.unlimited h.unclosed key
  have hPut :=
    Container.put_of_refusal?_eq_none hTaken
      (cache.store.alloc a).1 none
  unfold Cache.seed
  simp only [hPut]
  have hAlloc := h.alloc key a
  have hLine := Ledger.keyOf?_beginLine_new g key a
  have hPublish := hAlloc.publish hLine none
  rw [← h.next] at hPublish
  rw [← h.next]
  exact hPublish

/- An opened key is held through the line it continues. -/
omit [Std.LawfulEqOrd K] [DecidableEq K] in
theorem beginWrite
    (h : cache.Agrees g)
    (name : String)
    (key : K) :
    (cache.beginWrite name key).cache.Agrees
      (g.beginWrite name key) := by
  have hShown := h.shown key
  unfold Cache.beginWrite Opener.beginWrite Ledger.beginWrite
  cases hLine : g.shown key with
  | some line =>
      rw [hLine] at hShown
      simp only [hShown, Option.map_some]
      apply h.keep _ (h.sound.shown hLine)
      apply Tab.Kept.layered
      apply Tab.Rests.keptBy_fresh _ rfl rfl
      exact ⟨rfl, rfl, rfl, rfl, rfl, rfl⟩
  | none =>
      rw [hLine] at hShown
      simp only [hShown, Option.map_none]
      have hAlloc := h.alloc key default
      have hNew := Ledger.keyOf?_beginLine_new g key default
      apply hAlloc.keep _ hNew
      apply Tab.Kept.layered
      rw [← h.next]
      apply Tab.Rests.keptBy_fresh _ rfl rfl
      exact ⟨rfl, rfl, rfl, rfl, rfl, rfl⟩

/- A call concerns the tab of its entry only. -/
omit [Std.LawfulEqOrd K] in
theorem call
    (h : cache.Agrees g)
    (name : String)
    {c : Entry.Call (Handle α) δ}
    (hCall : c.KeepsValue) :
    (cache.call name c).cache.Agrees
      (g.step (.call name c)) := by
  unfold Cache.call
  simp only [Ledger.step]
  rcases h.tabs name with
    ⟨hTab, hEntry⟩ | ⟨t, e, hTab, hEntry, hKept⟩
  · simp only [hTab, hEntry]
    exact h
  · simp only [hTab, hEntry]
    apply h.keep (hKept.call hCall)
    rw [Tab.line_call, Tab.key_call]
    exact h.sound.tabs hTab

/- A commit publishes and posts what its tab says. -/
theorem commit
    (h : cache.Agrees g)
    (name : String) :
    (cache.commit name).cache.Agrees (g.commit name) := by
  unfold Cache.commit Cache.commitAt Ledger.commit
  rcases h.tabs name with
    ⟨hTab, hEntry⟩ | ⟨t, e, hTab, hEntry, hKept⟩
  · simp only [hTab, hEntry]
    exact h
  · simp only [hTab, hEntry]
    have hLine := h.sound.tabs hTab
    cases hKept with
    | @layered l p hKept =>
        by_cases hOpen : t.isOpen = true
        · have hTaken :=
            Container.refusal?_of_open
              h.unlimited h.unclosed t.key
          rcases hKept.commit_of_open hOpen hTaken
              cache.store none with
            ⟨_, hContainer, hStore, hClosed, _⟩
          rw [if_pos hOpen]
          have hPosted := h.post (p := t.posting) hLine
          have hPublished :=
            hPosted.publish hLine (Option.or none p.version)
          have hDone :=
            hPublished.keep hClosed hLine name
          rw [hContainer, hStore]
          exact hDone
        · have hClosed : t.isOpen = false := by
            simpa using hOpen
          rcases hKept.commit_of_closed hClosed
              cache.container cache.store with
            ⟨_, hContainer, hStore, hSame⟩
          rw [if_neg hOpen, hContainer, hStore]
          have hDone := h.keep hSame hLine name
          rw [Ledger.keep_eq_self hTab] at hDone
          exact hDone

/- A step that leaves live values alone keeps agreement. -/
theorem step
    (h : cache.Agrees g)
    {s : Step K α δ}
    (hStep : s.KeepsValues) :
    (cache.step s).cache.Agrees (g.step s) := by
  cases s with
  | seed key a => exact h.seed key a
  | beginWrite name key => exact h.beginWrite name key
  | call name c => exact h.call name hStep
  | commit name => exact h.commit name

/- So does a run of such steps. -/
theorem run
    (h : cache.Agrees g)
    {steps : List (Step K α δ)}
    (hSteps : ∀ s ∈ steps, s.KeepsValues) :
    (cache.run steps).Agrees (g.run steps) := by
  induction steps generalizing cache g with
  | nil => exact h
  | cons s steps ih =>
      have hFirst :=
        h.step (hSteps s List.mem_cons_self)
      apply ih hFirst
      intro r hMem
      exact hSteps r (List.mem_cons_of_mem s hMem)

end Agrees

/-
  Under each key a run commits the value of the line that the
  key shows.
-/
theorem committed?_run
    (config : Config)
    {steps : List (Step K α δ)}
    (hSteps : ∀ s ∈ steps, s.KeepsValues)
    (key : K) :
    ((withConfig config : Cache K α δ ω).run
        steps).committed? key =
      ((Ledger.empty.run steps).shown key).map
        (Ledger.empty.run steps).valueOf := by
  have hAgrees := (agrees_withConfig config).run hSteps
  unfold committed?
  rw [hAgrees.shown key]
  cases hShown : (Ledger.empty.run steps).shown key with
  | none => rfl
  | some line =>
      have hLine :=
        Ledger.lt_length_of_keyOf?
          (hAgrees.sound.shown hShown)
      simp [hAgrees.values hLine]

end Cache

end OverlayCache
