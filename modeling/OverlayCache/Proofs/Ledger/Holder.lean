import OverlayCache.Proofs.Ledger.Basic

/-
  Entries that follow a tab of a ledger.

  An entry that was opened on a cache is a layer over a plain
  entry.  Both hold the handle of the tab's line, and so does
  what the plain entry captured.  The key is present and
  usable at the bottom, so no delta is ever refused.  Every
  call but the replacement of the value keeps this, and a
  commit publishes the handle of the line.

  Key definitions include:
    * `Tab.Rests`
    * `Tab.KeptBy`
    * `Tab.Kept`
-/

------------------------------------------------------------
-- Holders Of A Line
------------------------------------------------------------

namespace OverlayCache

namespace Tab

variable {K α δ ω : Type}

/- A plain entry of the tab's line outside a transaction. -/
structure Rests
    (t : Tab K δ)
    (p : Plain K (Handle α)) : Prop where
  key : p.key = t.key
  value : p.value = some ⟨t.line⟩
  unchanged : p.flags.changed = false
  present : p.flags.removed = false
  usable : p.flags.valid = true
  untouched : p.captured = none

/- A layer and the plain entry below it follow a tab. -/
structure KeptBy
    (t : Tab K δ)
    (l : Layer K (Handle α) δ ω)
    (p : Plain K (Handle α)) : Prop where
  key : p.key = t.key
  value : l.value = some ⟨t.line⟩
  below : p.value = some ⟨t.line⟩
  pending : l.pending = t.pending
  isOpen :
    t.isOpen = (l.flags.changed || p.flags.changed)
  present : p.flags.removed = false
  usable : p.flags.valid = true
  unwritten : l.flags.changed = false → l.pending = []
  untouched : p.flags.changed = false → p.captured = none
  restorable :
    p.flags.changed = true →
      ∃ flags : Flags,
        p.captured = some ⟨some ⟨t.line⟩, flags⟩ ∧
          flags.changed = false ∧
          flags.removed = false ∧
          flags.valid = true

/- An entry follows a tab. -/
inductive Kept
    (t : Tab K δ) : Entry K (Handle α) δ ω → Prop
| layered
    {l : Layer K (Handle α) δ ω}
    {p : Plain K (Handle α)}
    (h : t.KeptBy l p) :
    Kept t (.stacked l (.plain p))

namespace KeptBy

variable {t : Tab K δ}
variable {l : Layer K (Handle α) δ ω}
variable {p : Plain K (Handle α)}

/- The bottom of the entry says that the key is present. -/
theorem is_removed (h : t.KeptBy l p) :
    (Entry.stacked l (.plain p)).is .removed = false := by
  simp [Entry.is, Flags.has, h.present]

/- The bottom of the entry says that the key is usable. -/
theorem is_valid (h : t.KeptBy l p) :
    (Entry.stacked l (.plain p)).is .valid = true := by
  simp [Entry.is, Flags.has, h.usable]

end KeptBy

/- A key that was just opened is kept by its entry. -/
theorem Rests.keptBy_fresh
    [Delta δ ω]
    {t : Tab K δ}
    {p : Plain K (Handle α)}
    (h : t.Rests p)
    (hOpen : t.isOpen = true)
    (hPending : t.pending = [])
    (config : Config) :
    t.KeptBy (ω := ω)
      (.fresh p.key (some ⟨t.line⟩) config)
      p.capture where
  key := by rw [Plain.key_capture, h.key]
  value := rfl
  below := by rw [Plain.value_capture, h.value]
  pending := hPending.symm
  isOpen := by simp [hOpen]
  present := by simp [h.present]
  usable := by simp [h.usable]
  unwritten _ := rfl
  untouched hChanged := by simp at hChanged
  restorable _ := by
    refine
      ⟨p.flags, ?_, h.unchanged, h.present, h.usable⟩
    rw [Plain.captured_capture, h.value]
    simp [h.unchanged]

/- A layer at rest over an entry at rest keeps a closed tab. -/
theorem Rests.keptBy_close
    {t : Tab K δ}
    {l : Layer K (Handle α) δ ω}
    {p : Plain K (Handle α)}
    (h : t.Rests p)
    (hValue : l.value = some ⟨t.line⟩)
    (hPending : l.pending = [])
    (hChanged : l.flags.changed = false) :
    t.close.KeptBy l p where
  key := h.key
  value := hValue
  below := h.value
  pending := hPending
  isOpen := by simp [Tab.close, hChanged, h.unchanged]
  present := h.present
  usable := h.usable
  unwritten _ := hPending
  untouched _ := h.untouched
  restorable hUp := by simp [h.unchanged] at hUp

end Tab

end OverlayCache

------------------------------------------------------------
-- Calls
------------------------------------------------------------

namespace OverlayCache

namespace Tab

namespace KeptBy

variable {K α δ ω : Type}
variable {t : Tab K δ}
variable {l : Layer K (Handle α) δ ω}
variable {p : Plain K (Handle α)}

/- Preparing the plain entry again captures the same. -/
theorem capture (h : t.KeptBy l p) :
    { t with isOpen := true }.KeptBy l p.capture where
  key := by rw [Plain.key_capture, h.key]
  value := h.value
  below := by rw [Plain.value_capture, h.below]
  pending := h.pending
  isOpen := by simp
  present := by simp [h.present]
  usable := by simp [h.usable]
  unwritten := h.unwritten
  untouched hChanged := by simp at hChanged
  restorable _ := by
    rw [Plain.captured_capture]
    by_cases hChanged : p.flags.changed = true
    · simpa [hChanged] using h.restorable hChanged
    · refine ⟨p.flags, ?_, by simpa using hChanged,
        h.present, h.usable⟩
      simp [hChanged, h.below]

/- A first write of the layer opens the tab. -/
theorem start
    (h : t.KeptBy l p)
    (created : Bool) :
    { t with isOpen := true }.KeptBy
      (l.start created) p where
  key := h.key
  value := by rw [Layer.value_start, h.value]
  below := h.below
  pending := by rw [Layer.pending_start, h.pending]
  isOpen := by simp
  present := h.present
  usable := h.usable
  unwritten hChanged := by simp at hChanged
  untouched := h.untouched
  restorable := h.restorable

/- A delta is appended to the tab as to the layer. -/
theorem append
    [Delta δ ω]
    (h : t.KeptBy l p)
    (created : Bool)
    (d : δ) :
    { t with
      pending := t.pending ++ [d]
      isOpen := true }.KeptBy
        (l.append created d) p where
  key := h.key
  value := by rw [Layer.value_append, h.value]
  below := h.below
  pending := by rw [Layer.pending_append, h.pending]
  isOpen := by simp
  present := h.present
  usable := h.usable
  unwritten hChanged := by simp at hChanged
  untouched := h.untouched
  restorable := h.restorable

/- What the layer's own flags say besides has no effect. -/
theorem withFlags
    (h : t.KeptBy l p)
    {flags : Flags}
    (hChanged : flags.changed = l.flags.changed) :
    t.KeptBy { l with flags := flags } p where
  key := h.key
  value := h.value
  below := h.below
  pending := h.pending
  isOpen := by rw [h.isOpen, hChanged]
  present := h.present
  usable := h.usable
  unwritten hUnchanged :=
    h.unwritten (hChanged.symm.trans hUnchanged)
  untouched := h.untouched
  restorable := h.restorable

/- Settings have no effect either. -/
theorem withConfig
    (h : t.KeptBy l p)
    (config : Config) :
    t.KeptBy { l with config := config } p where
  key := h.key
  value := h.value
  below := h.below
  pending := h.pending
  isOpen := h.isOpen
  present := h.present
  usable := h.usable
  unwritten := h.unwritten
  untouched := h.untouched
  restorable := h.restorable

/- A rollback brings the plain entry to rest. -/
theorem rests_rollback (h : t.KeptBy l p) :
    t.Rests (p.rollback (δ := δ)).1 := by
  unfold Plain.rollback
  by_cases hChanged : p.flags.changed = true
  · rcases h.restorable hChanged with
      ⟨flags, hCaptured, hFlags, hRemoved, hValid⟩
    rw [hCaptured]
    exact ⟨h.key, rfl, hFlags, hRemoved, hValid, rfl⟩
  · have hUnchanged : p.flags.changed = false := by
      simpa using hChanged
    rw [h.untouched hUnchanged]
    exact
      ⟨h.key, h.below, hUnchanged, h.present, h.usable,
        h.untouched hUnchanged⟩

/- A rollback closes the tab. -/
theorem rollback
    [Delta δ ω]
    (h : t.KeptBy l p) :
    t.close.KeptBy
      (l.discard (p.rollback (δ := δ)).1.value).1
      (p.rollback (δ := δ)).1 := by
  have hRests := h.rests_rollback
  unfold Layer.discard
  by_cases hChanged : l.flags.changed = true
  · rw [if_pos hChanged]
    exact hRests.keptBy_close hRests.value rfl rfl
  · rw [if_neg hChanged]
    have hUnchanged : l.flags.changed = false := by
      simpa using hChanged
    exact
      hRests.keptBy_close h.value
        (h.unwritten hUnchanged) hUnchanged

end KeptBy

end Tab

end OverlayCache

------------------------------------------------------------
-- Kept Entries Under Calls
------------------------------------------------------------

namespace OverlayCache

namespace Tab

variable {K α δ ω : Type}

/- A present and usable key has no removal to take back. -/
theorem KeptBy.undelete
    {t : Tab K δ}
    {l : Layer K (Handle α) δ ω}
    {p : Plain K (Handle α)}
    (h : t.KeptBy l p)
    (on : Bool) :
    (Entry.stacked l (.plain p)).undelete on =
      (false, .stacked l (.plain p), []) := by
  apply Entry.undelete_of_present
  exact h.present

variable [Delta δ ω]

/- No delta is refused. -/
theorem KeptBy.entry_append
    {t : Tab K δ}
    {l : Layer K (Handle α) δ ω}
    {p : Plain K (Handle α)}
    (h : t.KeptBy l p)
    (d : δ) :
    ((Entry.stacked l (.plain p)).append d).entry =
      .stacked (l.append p.flags.created d) (.plain p) := by
  simp only [Entry.append, Entry.top?, h.is_removed,
    h.is_valid]
  simp [Entry.withTop, Entry.is, Flags.has]

/-
  A call that does not replace the value is followed by the
  tab.
-/
theorem Kept.call
    {t : Tab K δ}
    {e : Entry K (Handle α) δ ω}
    (h : t.Kept e)
    {c : Entry.Call (Handle α) δ}
    (hCall : c.KeepsValue) :
    (t.call c).Kept (e.call c).entry := by
  cases h with
  | @layered l p h =>
      cases c with
      | append d =>
          have hEntry := h.entry_append d
          simp only [Entry.call, hEntry]
          exact .layered (h.append p.flags.created d)
      | setValue value => exact hCall.elim
      | mark m on =>
          apply Kept.layered
          apply h.withFlags
          cases m <;> rfl
      | setLock on => exact .layered h
      | setVersion version => exact .layered h
      | configure config =>
          exact .layered (h.withConfig config)
      | prepare =>
          exact .layered (h.capture.start _)
      | rollback => exact .layered h.rollback
      | undelete on =>
          have hEntry := h.undelete on
          simp only [Entry.call, hEntry]
          exact .layered h

end Tab

end OverlayCache

------------------------------------------------------------
-- Commits
------------------------------------------------------------

namespace OverlayCache

namespace Tab

variable {K α δ ω : Type}
variable {t : Tab K δ}
variable {l : Layer K (Handle α) δ ω}
variable {p : Plain K (Handle α)}

/- The commit finds the plain entry of an open tab prepared. -/
theorem KeptBy.ready
    (h : t.KeptBy l p)
    (hOpen : t.isOpen = true) :
    t.KeptBy l (if l.flags.changed then p.capture else p) ∧
      (if l.flags.changed then
        p.capture
      else
        p).flags.changed = true := by
  by_cases hLayer : l.flags.changed = true
  · rw [if_pos hLayer]
    refine ⟨?_, by simp⟩
    have hCapture := h.capture
    rw [← hOpen] at hCapture
    exact hCapture
  · rw [if_neg hLayer]
    refine ⟨h, ?_⟩
    have hEither := h.isOpen
    rw [hOpen] at hEither
    simpa [hLayer] using hEither.symm

/- A commit brings the plain entry to rest, at any version. -/
theorem KeptBy.rests_finish
    (h : t.KeptBy l p)
    (version : Option Version) :
    t.Rests (Plain.finish { p with version := version }) where
  key := h.key
  value := by simp [Plain.finish, h.present, h.below]
  unchanged := rfl
  present := rfl
  usable := rfl
  untouched := rfl

/-
  A prepared entry publishes the handle of the line, at the
  version that was asked for or else at its own.
-/
theorem KeptBy.plain_commit
    [Ord K] [Std.TransOrd K]
    (h : t.KeptBy l p)
    (hChanged : p.flags.changed = true)
    {c : Container K (Handle α)}
    (hTaken : c.refusal? t.key = none)
    (version : Option Version) :
    let v := version.or p.version
    p.commit (δ := δ) c version =
      { entry := Plain.finish { p with version := v }
        container :=
          { c with
            entries := c.entries.insert t.key ⟨⟨t.line⟩, v⟩ }
        events := [.publishing p.key v]
        result := .ok () } := by
  intro v
  have hPut :
      Plain.publication { p with version := v } =
        .put ⟨t.line⟩ := by
    simp [Plain.publication, h.present, h.usable, h.below]
  rw [← h.key] at hTaken ⊢
  simp only [Plain.commit, hChanged, hPut,
    Publication.carryOut, Publication.events,
    Repository.put_container, if_true, v,
    Container.put_of_refusal?_eq_none hTaken]

variable [Delta δ ω] [Inhabited α] [Aggregate α δ]

/- The layer replays what is pending into the line. -/
theorem KeptBy.layer_replay
    (h : t.KeptBy l p)
    (store : Heap α) :
    (l.replay store).store =
        (Holding.replay t.pending
          (⟨t.line⟩ : Handle α) store).2 ∧
      (l.replay store).layer.value = some ⟨t.line⟩ ∧
      (l.replay store).layer.pending = [] ∧
      (l.replay store).layer.flags = .untouched := by
  unfold Layer.replay
  rw [h.value]
  simp [Layer.reset, h.pending, Holding.replay_handle_fst]

variable [Ord K] [Std.TransOrd K]

/-
  The commit of an open tab makes its key name the line, at
  the version that was asked for or else at that of the plain
  entry, and replays the pending deltas into it.
-/
theorem KeptBy.commit_of_open
    (h : t.KeptBy l p)
    (hOpen : t.isOpen = true)
    {c : Container K (Handle α)}
    (hTaken : c.refusal? t.key = none)
    (store : Heap α)
    (version : Option Version) :
    let v := version.or p.version
    let o :=
      (Entry.stacked l (.plain p)).commit c store version
    o.result = .ok () ∧
      o.container =
        { c with
          entries := c.entries.insert t.key ⟨⟨t.line⟩, v⟩ } ∧
      o.store =
        (Holding.replay t.pending
          (⟨t.line⟩ : Handle α) store).2 ∧
      t.close.Kept o.entry ∧
      o.entry.bottom.version = v := by
  intro v o
  obtain ⟨q, hReadied⟩ :
      ∃ q : Plain K (Handle α),
        (if l.flags.changed then p.capture else p) = q :=
    ⟨_, rfl⟩
  rcases h.ready hOpen with ⟨hReady, hChanged⟩
  rw [hReadied] at hReady hChanged
  have hVersion : q.version = p.version := by
    rw [← hReadied]
    split
    · exact p.version_capture
    · rfl
  have hCommit := hReady.plain_commit hChanged hTaken version
  rw [hVersion] at hCommit
  rcases hReady.layer_replay store with
    ⟨hStore, hValue, hPending, hFlags⟩
  simp only [o, Entry.commit, Entry.ready_stacked_plain,
    hReadied, Entry.settle, hCommit]
  refine ⟨trivial, rfl, hStore, ?_, rfl⟩
  have hRests := hReady.rests_finish v
  apply Kept.layered
  apply hRests.keptBy_close hValue hPending
  rw [hFlags]
  rfl

/- So it is, whatever entry keeps the tab. -/
theorem Kept.commit_of_open
    {e : Entry K (Handle α) δ ω}
    (h : t.Kept e)
    (hOpen : t.isOpen = true)
    {c : Container K (Handle α)}
    (hTaken : c.refusal? t.key = none)
    (store : Heap α)
    (version : Option Version) :
    let v := version.or e.bottom.version
    let o := e.commit c store version
    o.result = .ok () ∧
      o.container =
        { c with
          entries := c.entries.insert t.key ⟨⟨t.line⟩, v⟩ } ∧
      o.store =
        (Holding.replay t.pending
          (⟨t.line⟩ : Handle α) store).2 ∧
      t.close.Kept o.entry ∧
      o.entry.bottom.version = v := by
  cases h with
  | layered hBy =>
      exact hBy.commit_of_open hOpen hTaken store version

/- The commit of a closed tab does nothing. -/
theorem KeptBy.commit_of_closed
    (h : t.KeptBy l p)
    (hClosed : t.isOpen = false)
    (c : Container K (Handle α))
    (store : Heap α) :
    let o :=
      (Entry.stacked l (.plain p)).commit c store none
    o.result = .ok () ∧
      o.container = c ∧
      o.store = store ∧
      t.Kept o.entry := by
  have hEither := h.isOpen
  rw [hClosed] at hEither
  have hLayer : l.flags.changed = false := by
    cases hUp : l.flags.changed
    · rfl
    · simp [hUp] at hEither
  have hPlain : p.flags.changed = false := by
    simpa [hLayer] using hEither.symm
  have hEmpty : t.pending = [] := by
    rw [← h.pending]
    exact h.unwritten hLayer
  have hTab : t.close = t := by
    cases t with
    | mk key line pending isOpen =>
        cases hClosed
        cases hEmpty
        rfl
  have hCommit :
      p.commit (δ := δ) c none =
        { entry := p
          container := c
          events := []
          result := .ok () } := by
    simp [Plain.commit, hPlain]
  rcases h.layer_replay store with
    ⟨hStore, hValue, hPending, hFlags⟩
  rw [hEmpty] at hStore
  simp only [Entry.commit, Entry.ready_stacked_plain,
    Entry.settle, hLayer, Bool.false_eq_true, if_false,
    hCommit]
  refine ⟨trivial, trivial, hStore, ?_⟩
  have hRests : t.Rests p :=
    ⟨h.key, h.below, hPlain, h.present, h.usable,
      h.untouched hPlain⟩
  rw [← hTab]
  apply Kept.layered
  apply hRests.keptBy_close hValue hPending
  rw [hFlags]
  rfl

end Tab

end OverlayCache
