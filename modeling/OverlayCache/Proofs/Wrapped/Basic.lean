import OverlayCache.Proofs.Commit.Publication
import OverlayCache.Proofs.History

/-
  Histories of a layer over a plain entry.

  The layer and the plain entry have a value each.  The layer
  replays its deltas into its own, and no commit hands that
  one down.  So a plain entry that is not marked removed keeps
  the value it was built over, and the layer goes back to that
  value when it is rolled back.

  A course follows such a history with nothing but the deltas
  of its transactions.

  Key definitions include:
    * `Plain.Keeps`
    * `Course`
    * `Course.run`
    * `Course.Follows`
    * `Course.Moved`
    * `Entry.Point.wrapping`
    * `Course.HoldsHandle`
    * `Course.HoldsValue`

  The main statements are:
    * `Course.Follows.act`
    * `Course.Follows.run`
    * `Course.Follows.holds_run`
    * `Course.handle_after_history`
    * `Course.value_after_history`
-/

------------------------------------------------------------
-- Plain Entries That Keep A Value
------------------------------------------------------------

namespace OverlayCache

namespace Plain

variable {γ K V δ : Type}

/-
  The entry has a value and goes back to the same one.  It is
  not marked removed, and was not when it was prepared.
-/
structure Keeps (p : Plain K V) (v : V) : Prop where
  value : p.value = some v
  present : p.flags.removed = false
  captured :
    ∀ before : Captured V,
      p.captured = some before →
        before.value = some v ∧ before.flags.removed = false

namespace Keeps

variable {p : Plain K V} {v : V}

theorem existing (key : K) (v : V) :
    (Plain.existing key (some v)).Keeps v :=
  ⟨rfl, rfl, fun _ hBefore => by cases hBefore⟩

theorem created (key : K) (v : V) :
    (Plain.created key v).Keeps v :=
  ⟨rfl, rfl, fun _ hBefore => by cases hBefore⟩

theorem capture (h : p.Keeps v) : p.capture.Keeps v where
  value := p.value_capture.trans h.value
  present := by simp [h.present]
  captured before hBefore := by
    rw [captured_capture] at hBefore
    by_cases hChanged : p.flags.changed = true
    · rw [if_pos hChanged] at hBefore
      exact h.captured before hBefore
    · rw [if_neg hChanged] at hBefore
      cases hBefore
      exact ⟨h.value, h.present⟩

theorem rollback (h : p.Keeps v) :
    (p.rollback (δ := δ)).1.Keeps v := by
  unfold Plain.rollback
  cases hCaptured : p.captured with
  | none => exact h
  | some before =>
      have hBefore := h.captured before hCaptured
      exact
        ⟨hBefore.1, hBefore.2,
          fun _ hNone => by cases hNone⟩

/- No commit gives the entry another value. -/
theorem commit
    [Repository γ K V]
    (h : p.Keeps v)
    (c : γ)
    (version : Option Version) :
    (p.commit (δ := δ) c version).entry.Keeps v := by
  cases hChanged : p.flags.changed with
  | false =>
      rw [commit_of_unchanged hChanged]
      exact h
  | true =>
      rcases commit_cases (δ := δ) hChanged c version with
        ⟨_, _, _, _, hEntry⟩ | ⟨_, _, hEntry⟩
      · rw [hEntry]
        exact ⟨h.value, h.present, h.captured⟩
      · rw [hEntry]
        refine ⟨?_, rfl, fun _ hNone => by cases hNone⟩
        simp [finish, h.present, h.value]

end Keeps

theorem key_commit
    [Repository γ K V]
    (p : Plain K V)
    (c : γ)
    (version : Option Version) :
    (p.commit (δ := δ) c version).entry.key = p.key := by
  cases hChanged : p.flags.changed with
  | false => rw [commit_of_unchanged hChanged]
  | true =>
      rcases commit_cases (δ := δ) hChanged c version with
        ⟨_, _, _, _, hEntry⟩ | ⟨_, _, hEntry⟩
      · rw [hEntry]
      · rw [hEntry]
        rfl

end Plain

end OverlayCache

------------------------------------------------------------
-- Courses
------------------------------------------------------------

namespace OverlayCache

/-
  The transactions of a history: all that were committed, the
  ones among them that were committed since the layer was last
  rolled back, and the deltas that are waiting.
-/
structure Course (δ : Type) where
  committed : List (List δ) := []
  recent : List (List δ) := []
  accepted : List δ := []

namespace Course

variable {γ K V δ ω σ : Type}

/- A delta is accepted. -/
def accept (t : Course δ) (d : δ) : Course δ :=
  { t with accepted := t.accepted ++ [d] }

/- The layer is rolled back. -/
def undo (t : Course δ) : Course δ :=
  { t with recent := [], accepted := [] }

/- The accepted deltas are committed. -/
def close (t : Course δ) : Course δ where
  committed := t.committed ++ [t.accepted]
  recent := t.recent ++ [t.accepted]

/-
  Follow an action, given the reply to it and whether the
  layer had been written to.
-/
def act
    (t : Course δ)
    (changed : Bool) :
    Entry.Action γ V δ → Entry.Reply V → Course δ
| .call (.append d), .done => t.accept d
| .call .rollback, _ => if changed then t.undo else t
| .commit _ _, .done => t.close
| _, _ => t

variable [Repository γ K V]
variable [Delta δ ω] [Holding V σ δ]

/- Follow a history from a point on. -/
def run
    (t : Course δ)
    (q : Entry.Point K V δ ω σ) :
    List (Entry.Action γ V δ) → Course δ
| [] => t
| a :: actions =>
    (t.act q.entry.isChanged a (q.act a).reply).run
      (q.act a) actions

end Course

end OverlayCache

------------------------------------------------------------
-- Layers That Follow A Course
------------------------------------------------------------

namespace OverlayCache

namespace Course

variable {K V δ ω : Type}

/-
  A layer has the accepted deltas pending, over a plain entry
  of its key that keeps a value.
-/
structure FollowedBy
    (t : Course δ)
    (v : V)
    (l : Layer K V δ ω)
    (p : Plain K V) : Prop where
  key : l.key = p.key
  pending : l.pending = t.accepted
  unwritten : l.flags.changed = false → t.accepted = []
  keeps : p.Keeps v

/- An entry is such a layer. -/
inductive Follows
    (t : Course δ)
    (v : V) : Entry K V δ ω → Prop
| layered
    {l : Layer K V δ ω}
    {p : Plain K V}
    (h : t.FollowedBy v l p) :
    Follows t v (.stacked l (.plain p))

namespace FollowedBy

variable {t : Course δ} {v : V}
variable {l : Layer K V δ ω} {p : Plain K V}

theorem fresh
    [Delta δ ω]
    (h : p.Keeps v)
    (value : Option V)
    (config : Config) :
    ({} : Course δ).FollowedBy v
      (.fresh p.key value config) p :=
  ⟨rfl, rfl, fun _ => rfl, h⟩

/- The plain entry may be replaced. -/
theorem onto
    (h : t.FollowedBy v l p)
    {p' : Plain K V}
    (hKey : p'.key = p.key)
    (hKeeps : p'.Keeps v) :
    t.FollowedBy v l p' :=
  ⟨h.key.trans hKey.symm, h.pending, h.unwritten, hKeeps⟩

theorem capture (h : t.FollowedBy v l p) :
    t.FollowedBy v l p.capture :=
  h.onto p.key_capture h.keeps.capture

theorem start
    (h : t.FollowedBy v l p)
    (created : Bool) :
    t.FollowedBy v (l.start created) p where
  key := by simp [h.key]
  pending := by simp [h.pending]
  unwritten hUnchanged := by simp at hUnchanged
  keeps := h.keeps

variable [Delta δ ω]

theorem append
    (h : t.FollowedBy v l p)
    (created : Bool)
    (d : δ) :
    (t.accept d).FollowedBy v (l.append created d) p where
  key := (l.key_start created).trans h.key
  pending := by simp [accept, h.pending]
  unwritten hUnchanged := by simp at hUnchanged
  keeps := h.keeps

/- A layer that was reset has nothing pending. -/
theorem reset
    (h : t.FollowedBy v l p)
    {t' : Course δ}
    (hNone : t'.accepted = [])
    (value : Option V) :
    t'.FollowedBy v
      (Layer.reset { l with value := value }) p :=
  ⟨h.key, hNone.symm, fun _ => hNone, h.keeps⟩

end FollowedBy

end Course

end OverlayCache

------------------------------------------------------------
-- Single Actions
------------------------------------------------------------

namespace OverlayCache

namespace Course

variable {γ K V δ ω σ : Type}
variable [Delta δ ω] [Holding V σ δ]

/-
  What an action does to the value of the layer and to the
  store.  Either it leaves them alone and no transaction ends,
  or the layer is rolled back and has the value of the plain
  entry again, or its value takes the accepted deltas in.
-/
inductive Moved
    (v : V)
    (t t' : Course δ)
    (q q' : Entry.Point K V δ ω σ) : Prop
| kept
    (hCommitted : t'.committed = t.committed)
    (hRecent : t'.recent = t.recent)
    (hValue : q'.entry.value = q.entry.value)
    (hStore : q'.store = q.store)
    (hChanged :
      q.entry.isChanged = true → q'.entry.isChanged = true)
| undone
    (hCourse : t' = t.undo)
    (hValue : q'.entry.value = some v)
    (hStore : q'.store = q.store)
    (hEnded : q'.entry.isChanged = false)
| absorbed
    (hCourse : t' = t.close)
    (hReplayed :
      ∀ w : V,
        q.entry.value = some w →
          let r := Holding.replay t.accepted w q.store
          q'.entry.value = some r.1 ∧ q'.store = r.2)
    (hEnded : q'.entry.isChanged = false)

variable [Repository γ K V]

/-
  An action that a course follows, with what it does unless it
  replaces the value.
-/
structure Step
    (v : V)
    (t : Course δ)
    (q : Entry.Point K V δ ω σ)
    (a : Entry.Action γ V δ)
    (q' : Entry.Point K V δ ω σ) : Prop where
  follows :
    (t.act q.entry.isChanged a q'.reply).Follows v q'.entry
  moved :
    a.KeepsValue →
      Moved v t (t.act q.entry.isChanged a q'.reply) q q'

namespace FollowedBy

variable {t : Course δ} {v : V}
variable {l : Layer K V δ ω} {p : Plain K V}

/- An action that goes on as before. -/
omit [Delta δ ω] [Repository γ K V] in
theorem step_kept
    {l' : Layer K V δ ω}
    {p' : Plain K V}
    (h : t.FollowedBy v l' p')
    (hValue : l'.value = l.value)
    (hChanged :
      l.flags.changed = true → l'.flags.changed = true)
    {a : Entry.Action γ V δ}
    {r r' : Entry.Reply V}
    (hCourse : t.act l.flags.changed a r' = t)
    (s : σ) :
    Step v t ⟨.stacked l (.plain p), s, r⟩ a
      ⟨.stacked l' (.plain p'), s, r'⟩ where
  follows := by
    change (t.act l.flags.changed a r').Follows v _
    rw [hCourse]
    exact .layered h
  moved _ := by
    change Moved v t (t.act l.flags.changed a r') _ _
    rw [hCourse]
    exact .kept rfl rfl hValue rfl hChanged

/- A delta is refused, or it is appended. -/
theorem step_append
    (h : t.FollowedBy v l p)
    (d : δ)
    (s : σ)
    (r : Entry.Reply V) :
    let q : Entry.Point K V δ ω σ :=
      ⟨.stacked l (.plain p), s, r⟩
    let a : Entry.Action γ V δ := .call (.append d)
    Step v t q a (q.act a) := by
  intro q a
  simp only [q, a, Entry.Point.act, Entry.call, Entry.append,
    Entry.top?]
  split
  · exact h.step_kept rfl id rfl s
  · constructor
    · exact .layered (h.append _ d)
    · intro _
      apply Moved.kept
      · rfl
      · rfl
      · exact l.value_append _ d
      · rfl
      · intro _
        simp [Entry.isChanged, Entry.ownFlags, Entry.withTop]

/- A layer that was written to is undone, and no other. -/
theorem step_rollback
    (h : t.FollowedBy v l p)
    (s : σ)
    (r : Entry.Reply V) :
    let q : Entry.Point K V δ ω σ :=
      ⟨.stacked l (.plain p), s, r⟩
    let a : Entry.Action γ V δ := .call .rollback
    Step v t q a (q.act a) := by
  intro q a
  have hBelow :
      t.FollowedBy v l (p.rollback (δ := δ)).1 :=
    h.onto p.key_rollback h.keeps.rollback
  have hAct :
      q.act a =
        { entry :=
            .stacked (l.discard (some v)).1
              (.plain (p.rollback (δ := δ)).1)
          store := s } := by
    rw [← hBelow.keeps.value]
    rfl
  rw [hAct]
  unfold Layer.discard
  by_cases hChanged : l.flags.changed = true
  · rw [if_pos hChanged]
    have hCourse :
        t.act l.flags.changed a .done = t.undo :=
      if_pos hChanged
    constructor
    · change (t.act l.flags.changed a .done).Follows v _
      rw [hCourse]
      exact .layered (hBelow.reset rfl _)
    · intro _
      change Moved v t (t.act l.flags.changed a .done) _ _
      rw [hCourse]
      exact .undone rfl rfl rfl rfl
  · rw [if_neg hChanged]
    have hCourse : t.act l.flags.changed a .done = t :=
      if_neg hChanged
    exact hBelow.step_kept rfl id hCourse s

/- A commit is refused, or the layer takes its deltas in. -/
theorem step_commit
    (h : t.FollowedBy v l p)
    (c : γ)
    (version : Option Version)
    (s : σ)
    (r : Entry.Reply V) :
    let q : Entry.Point K V δ ω σ :=
      ⟨.stacked l (.plain p), s, r⟩
    let a : Entry.Action γ V δ := .commit c version
    Step v t q a (q.act a) := by
  intro q a
  let ready := if l.flags.changed then p.capture else p
  let below := (ready.commit (δ := δ) c version).entry
  have hReady : t.FollowedBy v l ready := by
    simp only [ready]
    split
    · exact h.capture
    · exact h
  have hBelow : t.FollowedBy v l below :=
    hReady.onto (ready.key_commit c version)
      (hReady.keeps.commit c version)
  simp only [q, a, Entry.Point.act]
  rcases Entry.commit_stacked_plain l p c s version with
    ⟨refusal, hResult, hStore, hEntry⟩ |
    ⟨hResult, hStore, hEntry⟩
  · rw [hResult, hStore, hEntry]
    exact hBelow.step_kept rfl id rfl s
  · rw [hResult, hStore, hEntry]
    constructor
    · apply Follows.layered
      unfold Layer.replay
      split
      · exact hBelow.reset rfl l.value
      · exact hBelow.reset rfl _
    · intro _
      apply Moved.absorbed
      · rfl
      · intro w hValue
        change l.value = some w at hValue
        unfold Layer.replay
        rw [hValue, h.pending]
        exact ⟨rfl, rfl⟩
      · unfold Layer.replay
        split
        · rfl
        · rfl

end FollowedBy

/- A course follows each action. -/
theorem Follows.act
    {t : Course δ}
    {v : V}
    {q : Entry.Point K V δ ω σ}
    (h : t.Follows v q.entry)
    (a : Entry.Action γ V δ) :
    Step v t q a (q.act a) := by
  rcases q with ⟨e, s, r⟩
  cases h with
  | @layered l p h =>
      cases a with
      | commit c version => exact h.step_commit c version s r
      | call c =>
          cases c with
          | append d => exact h.step_append d s r
          | setValue value =>
              constructor
              · exact .layered
                  ⟨h.key, h.pending, h.unwritten, h.keeps⟩
              · intro hKeeps
                exact hKeeps.elim
          | mark m on =>
              let l' : Layer K V δ ω :=
                { l with flags := l.flags.assign m.flag on }
              have hSame :
                  l'.flags.changed = l.flags.changed := by
                cases m <;> rfl
              have hBy : t.FollowedBy v l' p :=
                ⟨h.key, h.pending,
                  fun hDown =>
                    h.unwritten (hSame.symm.trans hDown),
                  h.keeps⟩
              apply hBy.step_kept
              · rfl
              · exact hSame.trans
              · rfl
          | setLock on => exact h.step_kept rfl id rfl s
          | setVersion version => exact h.step_kept rfl id rfl s
          | configure config =>
              let l' : Layer K V δ ω :=
                { l with config := config }
              have hBy : t.FollowedBy v l' p :=
                ⟨h.key, h.pending, h.unwritten, h.keeps⟩
              apply hBy.step_kept
              · rfl
              · exact id
              · rfl
          | prepare =>
              apply (h.capture.start _).step_kept
              · exact l.value_start _
              · intro _
                simp
              · rfl
          | rollback => exact h.step_rollback s r
          | undelete on =>
              have hSame :
                  (Entry.stacked l (.plain p)).undelete on =
                    (false, .stacked l (.plain p), []) := by
                apply Entry.undelete_of_present
                exact h.keeps.present
              simp only [Entry.Point.act, Entry.call, hSame]
              exact h.step_kept rfl id rfl s

end Course

end OverlayCache

------------------------------------------------------------
-- Whole Histories
------------------------------------------------------------

namespace OverlayCache

/- A fresh layer over a plain entry, with a value of its own. -/
def Entry.Point.wrapping
    {K V δ ω σ : Type} [Delta δ ω]
    (p : Plain K V)
    (value : V)
    (config : Config)
    (s : σ) : Entry.Point K V δ ω σ where
  entry :=
    .stacked (.fresh p.key (some value) config) (.plain p)
  store := s

namespace Course

variable {γ K V δ ω σ : Type}
variable [Repository γ K V]
variable [Delta δ ω] [Holding V σ δ]

variable {t : Course δ} {v : V}
variable {q : Entry.Point K V δ ω σ}
variable {actions : List (Entry.Action γ V δ)}

omit [Repository γ K V] [Holding V σ δ] in
theorem follows_wrapping
    {p : Plain K V}
    (h : p.Keeps v)
    (value : V)
    (config : Config)
    (s : σ) :
    ({} : Course δ).Follows v
      (Entry.Point.wrapping p value config s :
        Entry.Point K V δ ω σ).entry :=
  .layered (.fresh h (some value) config)

/- A course follows a whole history. -/
theorem Follows.run
    (h : t.Follows v q.entry)
    (actions : List (Entry.Action γ V δ)) :
    (t.run q actions).Follows v (q.run actions).entry := by
  induction actions generalizing t q with
  | nil => exact h
  | cons a actions ih => exact ih (h.act a).follows

/-
  What survives every move holds after a history that leaves
  the value to transactions.
-/
theorem Follows.holds_run
    {holds : Course δ → Entry.Point K V δ ω σ → Prop}
    (hMoved :
      ∀ (t t' : Course δ) (q q' : Entry.Point K V δ ω σ),
        holds t q → Moved v t t' q q' → holds t' q')
    (h : t.Follows v q.entry)
    (hHolds : holds t q)
    (hActions : ∀ a ∈ actions, a.KeepsValue) :
    holds (t.run q actions) (q.run actions) := by
  induction actions generalizing t q with
  | nil => exact hHolds
  | cons a actions ih =>
      have hStep := h.act a
      apply ih hStep.follows
      · exact
          hMoved t _ q _ hHolds
            (hStep.moved (hActions a List.mem_cons_self))
      · intro b hMem
        exact hActions b (List.mem_cons_of_mem a hMem)

end Course

end OverlayCache

------------------------------------------------------------
-- Shared And Unshared Values
------------------------------------------------------------

namespace OverlayCache

namespace Course

variable {γ K α δ ω : Type}
variable [Delta δ ω] [Aggregate α δ]

/-
  The layer holds a handle, and the aggregate that the handle
  names has taken in all that was committed.
-/
structure HoldsHandle
    [Inhabited α]
    (h : Handle α)
    (first : α)
    (t : Course δ)
    (q : Entry.Point K (Handle α) δ ω (Heap α)) :
    Prop where
  value : q.entry.value = some h
  read :
    q.store.read h = Aggregate.absorbAll t.committed first

/-
  The layer holds an aggregate by itself, which has taken in
  what was committed since the last rollback.
-/
def HoldsValue
    (first : α)
    (t : Course δ)
    (q : Entry.Point K α δ ω Unit) : Prop :=
  q.entry.value = some (Aggregate.absorbAll t.recent first)

/- A rollback finds the handle where it was. -/
omit [Delta δ ω] in
theorem HoldsHandle.moved
    [Inhabited α]
    {h : Handle α}
    {first : α}
    (t t' : Course δ)
    (q q' : Entry.Point K (Handle α) δ ω (Heap α))
    (hHolds : HoldsHandle h first t q)
    (hMoved : Moved h t t' q q') :
    HoldsHandle h first t' q' := by
  cases hMoved with
  | kept hCommitted _ hValue hStore _ =>
      constructor
      · rw [hValue, hHolds.value]
      · rw [hStore, hCommitted, hHolds.read]
  | undone hCourse hValue hStore _ =>
      subst hCourse
      constructor
      · exact hValue
      · rw [hStore, hHolds.read]
        rfl
  | absorbed hCourse hReplayed _ =>
      subst hCourse
      rcases hReplayed h hHolds.value with ⟨hValue, hStore⟩
      constructor
      · rw [hValue, Holding.replay_handle_fst]
      · rw [hStore, Heap.read_replay, if_pos rfl, hHolds.read,
          close, Aggregate.absorbAll_append]
        rfl

/- A rollback finds the aggregate that the layer began with. -/
omit [Delta δ ω] in
theorem HoldsValue.moved
    {first : α}
    (t t' : Course δ)
    (q q' : Entry.Point K α δ ω Unit)
    (hHolds : HoldsValue first t q)
    (hMoved : Moved first t t' q q') :
    HoldsValue first t' q' := by
  unfold HoldsValue at hHolds ⊢
  cases hMoved with
  | kept _ hRecent hValue _ _ =>
      rw [hValue, hRecent, hHolds]
  | undone hCourse hValue _ _ =>
      subst hCourse
      exact hValue
  | absorbed hCourse hReplayed _ =>
      subst hCourse
      rw [(hReplayed _ hHolds).1, Holding.replay_value, close,
        Aggregate.absorbAll_append]
      rfl

theorem handle_after_history
    [Inhabited α] [Repository γ K (Handle α)]
    {p : Plain K (Handle α)}
    {h : Handle α}
    (hKeeps : p.Keeps h)
    (config : Config)
    (s : Heap α)
    {actions : List (Entry.Action γ (Handle α) δ)}
    (hActions : ∀ a ∈ actions, a.KeepsValue) :
    let q : Entry.Point K (Handle α) δ ω (Heap α) :=
      .wrapping p h config s
    HoldsHandle h (s.read h) (({} : Course δ).run q actions)
      (q.run actions) := by
  intro q
  have hFresh : HoldsHandle h (s.read h) {} q := ⟨rfl, rfl⟩
  exact
    (follows_wrapping hKeeps h config s).holds_run
      HoldsHandle.moved hFresh hActions

theorem value_after_history
    [Repository γ K α]
    {p : Plain K α}
    {first : α}
    (hKeeps : p.Keeps first)
    (config : Config)
    {actions : List (Entry.Action γ α δ)}
    (hActions : ∀ a ∈ actions, a.KeepsValue) :
    let q : Entry.Point K α δ ω Unit :=
      .wrapping p first config ()
    HoldsValue first (({} : Course δ).run q actions)
      (q.run actions) := by
  intro q
  have hFresh : HoldsValue first {} q := rfl
  exact
    (follows_wrapping hKeeps first config ()).holds_run
      HoldsValue.moved hFresh hActions

end Course

end OverlayCache
