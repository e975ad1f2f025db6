import Mathlib.Data.List.Induction
import OverlayCache.Counter
import OverlayCache.Proofs.Commit.Version
import OverlayCache.Proofs.Layers.FirstWrite
import OverlayCache.Workspace.Basic

/-
  What plain entries go back to.

  A plain entry is changed exactly while it holds what it was
  before.  Whatever is done to it, or to the stack over it,
  either it comes to rest, or it goes on with its transaction
  and holds what it held.  So a rollback brings back what the
  entry was when it was last not prepared.

  Key definitions include:
    * `Plain.AtRest`
    * `Plain.Coherent`
    * `Plain.before`
    * `Plain.GoesOn`
    * `Entry.Unused`
    * `Entry.LastUnprepared`
    * `Entry.Point.StaysOpen`

  The main statements are:
    * `Plain.GoesOn.before_eq`
    * `Entry.bottom_move`
    * `Entry.exists_lastUnprepared`
    * `Entry.rollback_restores_captured`
-/

------------------------------------------------------------
-- Coherent Plain Entries
------------------------------------------------------------

namespace OverlayCache

namespace Plain

variable {K V δ : Type}

/- No transaction is on its way, and nothing is held. -/
structure AtRest (p : Plain K V) : Prop where
  unchanged : p.flags.changed = false
  uncaptured : p.captured = none

/-
  The entry is changed exactly when it holds what it was
  before, and that was not changed.
-/
structure Coherent (p : Plain K V) : Prop where
  isSome_captured : p.captured.isSome = p.flags.changed
  captured :
    ∀ before : Captured V,
      p.captured = some before →
        before.flags.changed = false

/- What a rollback brings back. -/
def before (p : Plain K V) : Captured V :=
  p.captured.getD ⟨p.value, p.flags⟩

theorem atRest_finish (p : Plain K V) : p.finish.AtRest :=
  ⟨rfl, rfl⟩

theorem rollback_eq (p : Plain K V) :
    (p.rollback (δ := δ)).1 =
      { p with
        value := p.before.value
        flags := p.before.flags
        captured := none } := by
  unfold rollback before
  cases hCaptured : p.captured with
  | none =>
      cases p
      cases hCaptured
      rfl
  | some held => rfl

/- An entry that holds something goes back to that. -/
theorem before_of_captured
    {p : Plain K V}
    {held : Captured V}
    (hHeld : p.captured = some held) :
    p.before = held := by
  simp [before, hHeld]

namespace AtRest

variable {p : Plain K V}

theorem coherent (h : p.AtRest) : p.Coherent where
  isSome_captured := by simp [h.unchanged, h.uncaptured]
  captured before hBefore := by
    rw [h.uncaptured] at hBefore
    cases hBefore

theorem before_eq (h : p.AtRest) :
    p.before = ⟨p.value, p.flags⟩ := by
  simp [before, h.uncaptured]

/- There is nothing to bring back. -/
theorem rollback (h : p.AtRest) :
    p.rollback = (p, ([] : List (Event K δ))) := by
  simp [Plain.rollback, h.uncaptured]

end AtRest

namespace Coherent

variable {p : Plain K V}

theorem atRest
    (h : p.Coherent)
    (hUnchanged : p.flags.changed = false) :
    p.AtRest where
  unchanged := hUnchanged
  uncaptured := by
    have hNone := h.isSome_captured.trans hUnchanged
    simpa using hNone

theorem capture (h : p.Coherent) : p.capture.Coherent := by
  cases hChanged : p.flags.changed with
  | true =>
      have hSame : p.capture = p := if_pos hChanged
      rw [hSame]
      exact h
  | false =>
      constructor
      · simp [captured_capture, hChanged]
      · intro before hBefore
        rw [captured_capture, hChanged] at hBefore
        cases hBefore
        exact hChanged

/- An entry that is rolled back is at rest. -/
theorem atRest_rollback (h : p.Coherent) :
    (p.rollback (δ := δ)).1.AtRest := by
  rw [rollback_eq]
  refine ⟨?_, rfl⟩
  cases hCaptured : p.captured with
  | none =>
      have hUnchanged := h.isSome_captured
      rw [hCaptured] at hUnchanged
      simpa [before, hCaptured] using hUnchanged.symm
  | some held =>
      rw [before_of_captured hCaptured]
      exact h.captured held hCaptured

/- A changed entry holds something to go back to. -/
theorem exists_captured
    (h : p.Coherent)
    (hChanged : p.flags.changed = true) :
    ∃ held : Captured V, p.captured = some held := by
  apply Option.isSome_iff_exists.mp
  exact h.isSome_captured.trans hChanged

theorem rollback_of_changed
    (h : p.Coherent)
    (hChanged : p.flags.changed = true) :
    p.rollback =
      ({ p with
          value := p.before.value
          flags := p.before.flags
          captured := none },
        [(.restored p.key : Event K δ)]) := by
  rcases h.exists_captured hChanged with ⟨held, hHeld⟩
  rw [before_of_captured hHeld]
  simp [Plain.rollback, hHeld]

end Coherent

end Plain

end OverlayCache

------------------------------------------------------------
-- Transactions That Go On
------------------------------------------------------------

namespace OverlayCache

namespace Plain

variable {K V : Type}

/-
  What an entry may become as long as its transaction goes on.
  It may be prepared along with a version, as by a commit that
  is refused.
-/
inductive GoesOn (p : Plain K V) : Plain K V → Prop
| kept
    (value : Option V)
    (version : Option Version)
    {flags : Flags}
    (hChanged : flags.changed = p.flags.changed) :
    GoesOn p
      { p with
        value := value
        version := version
        flags := flags }
| prepared (version : Option Version) :
    GoesOn p { p.capture with version := version }

namespace GoesOn

variable {p q : Plain K V}

theorem refl (p : Plain K V) : p.GoesOn p :=
  .kept p.value p.version rfl

theorem capture (p : Plain K V) : p.GoesOn p.capture := by
  have hSame : p.capture.version = p.version :=
    p.version_capture
  have hPrepared := GoesOn.prepared (p := p) p.version
  rw [← hSame] at hPrepared
  exact hPrepared

theorem coherent
    (h : p.GoesOn q)
    (hCoherent : p.Coherent) :
    q.Coherent := by
  cases h with
  | kept value version hChanged =>
      constructor
      · exact hCoherent.isSome_captured.trans hChanged.symm
      · exact hCoherent.captured
  | prepared version =>
      exact
        ⟨hCoherent.capture.isSome_captured,
          hCoherent.capture.captured⟩

theorem changed
    (h : p.GoesOn q)
    (hChanged : p.flags.changed = true) :
    q.flags.changed = true := by
  cases h with
  | kept value version hSame => exact hSame.trans hChanged
  | prepared version => simp

/-
  As soon as the entry is changed, it holds what it was, and
  it holds that to the end.
-/
theorem before_eq
    (h : p.GoesOn q)
    (hCoherent : p.Coherent)
    (hNow : q.flags.changed = true) :
    q.before = p.before := by
  cases h with
  | kept value version hChanged =>
      rcases hCoherent.exists_captured
          (hChanged.symm.trans hNow) with ⟨held, hHeld⟩
      rw [before_of_captured hHeld]
      exact before_of_captured hHeld
  | prepared version =>
      have hCaptured := p.captured_capture
      cases hChanged : p.flags.changed with
      | true =>
          rcases hCoherent.exists_captured hChanged with
            ⟨held, hHeld⟩
          rw [hChanged, if_pos rfl, hHeld] at hCaptured
          rw [before_of_captured hHeld]
          exact before_of_captured hCaptured
      | false =>
          rw [hChanged] at hCaptured
          rw [(hCoherent.atRest hChanged).before_eq]
          exact before_of_captured hCaptured

end GoesOn

/- Every call but a rollback lets the transaction go on. -/
theorem Turned.goesOn
    {δ : Type}
    {p q : Plain K V}
    {c : Entry.Call V δ}
    (h : p.Turned c q)
    (hCall : c.Continues) :
    p.GoesOn q := by
  cases h with
  | kept value hChanged => exact .kept value p.version hChanged
  | versioned version => exact .kept p.value version rfl
  | prepared => exact .capture p
  | restored => exact hCall.elim

end Plain

end OverlayCache

------------------------------------------------------------
-- Bottoms In Histories
------------------------------------------------------------

namespace OverlayCache

namespace Entry

variable {γ K V δ ω σ : Type}

/- What a history begins with: nothing was written to it. -/
inductive Unused [Delta δ ω] : Entry K V δ ω → Prop
| plain
    {p : Plain K V}
    (h : p.AtRest) :
    Unused (.plain p)
| alone (key : K) (value : Option V) (config : Config) :
    Unused (.alone (.fresh key value config))

theorem Unused.bare
    [Delta δ ω]
    {e : Entry K V δ ω}
    (h : e.Unused) : e.Bare := by
  cases h with
  | plain h => exact .plain _
  | alone key value config => exact .alone key value config

/- If there is a plain entry at the bottom, it is coherent. -/
def SoundBottom (e : Entry K V δ ω) : Prop :=
  ∀ p : Plain K V, e.bottom = .plain p → p.Coherent

theorem Unused.soundBottom
    [Delta δ ω]
    {e : Entry K V δ ω}
    (h : e.Unused) : e.SoundBottom := by
  intro p hBottom
  cases h with
  | plain h =>
      cases hBottom
      exact h.coherent
  | alone key value config => cases hBottom

/- Entries that are built alike have the same kind of bottom. -/
theorem Levelwise.bottom_plain
    {R : Layer K V δ ω → Layer K V δ ω → Prop}
    {e f : Entry K V δ ω}
    (h : e.Levelwise R f)
    {q : Plain K V}
    (hBottom : f.bottom = .plain q) :
    ∃ p : Plain K V, e.bottom = .plain p := by
  induction h with
  | plain p q' => exact ⟨p, rfl⟩
  | alone h => cases hBottom
  | stacked h hBelow ih => exact ih hBottom

variable [Repository γ K V]
variable [Delta δ ω] [Holding V σ δ]
variable {e : Entry K V δ ω}
variable {p : Plain K V}

/- A refused commit lets the transaction go on. -/
theorem bottom_commit_of_refused
    (hBottom : e.bottom = .plain p)
    {c : γ}
    {s : σ}
    {version : Option Version}
    {refusal : Refusal}
    (hRefused :
      (e.commit c s version).result = .error refusal) :
    ∃ q : Plain K V,
      (e.commit c s version).entry.bottom = .plain q ∧
        p.GoesOn q := by
  cases hTouched : e.isTouched with
  | false =>
      have hOk :=
        (bottom_commit_of_untouched hBottom hTouched c s
          version).1
      rw [hOk] at hRefused
      cases hRefused
  | true =>
      rcases bottom_commit_of_touched hBottom hTouched c s
          version with
        ⟨_, _, _, hEnd⟩ | ⟨_, hOk, _⟩
      · exact ⟨_, hEnd, .prepared _⟩
      · rw [hOk] at hRefused
        cases hRefused

/- An accepted commit leaves the bottom at rest. -/
theorem bottom_commit_of_ok
    (hBottom : e.bottom = .plain p)
    (hCoherent : p.Coherent)
    {c : γ}
    {s : σ}
    {version : Option Version}
    (hOk : (e.commit c s version).result = .ok ()) :
    ∃ q : Plain K V,
      (e.commit c s version).entry.bottom = .plain q ∧
        q.AtRest := by
  cases hTouched : e.isTouched with
  | false =>
      have hEnd :=
        (bottom_commit_of_untouched hBottom hTouched c s
          version).2.2
      have hUnchanged := unchanged_of_untouched hBottom hTouched
      exact ⟨p, hEnd, hCoherent.atRest hUnchanged⟩
  | true =>
      rcases bottom_commit_of_touched hBottom hTouched c s
          version with
        ⟨refusal, hRefused, _⟩ | ⟨_, _, hEnd⟩
      · rw [hOk] at hRefused
        cases hRefused
      · exact ⟨_, hEnd, Plain.atRest_finish _⟩

/-
  Whatever happens to an entry, the plain entry at its bottom
  goes on with its transaction, or it is at rest.
-/
theorem bottom_move
    (hBottom : e.bottom = .plain p)
    (hCoherent : p.Coherent)
    (m : Move γ K V δ σ) :
    ∃ q : Plain K V,
      (e.move m).bottom = .plain q ∧
        (p.GoesOn q ∨ q.AtRest) := by
  cases m with
  | cover key value config =>
      exact ⟨p, hBottom, Or.inl (.refl p)⟩
  | act store action =>
      cases action with
      | commit c version =>
          cases hResult :
              (e.commit c store version).result with
          | ok u =>
              rcases bottom_commit_of_ok hBottom hCoherent
                  hResult with ⟨q, hEnd, hRest⟩
              exact ⟨q, hEnd, Or.inr hRest⟩
          | error refusal =>
              rcases bottom_commit_of_refused hBottom
                  hResult with ⟨q, hEnd, hGoesOn⟩
              exact ⟨q, hEnd, Or.inl hGoesOn⟩
      | call c =>
          rcases bottom_turned hBottom c with
            ⟨q, hEnd, hTurned⟩
          refine ⟨q, hEnd, ?_⟩
          cases hTurned with
          | restored => exact Or.inr hCoherent.atRest_rollback
          | kept value hChanged =>
              exact Or.inl (.kept value p.version hChanged)
          | versioned version =>
              exact Or.inl (.kept p.value version rfl)
          | prepared => exact Or.inl (.capture p)

/- What lies over a plain entry did so before a move. -/
theorem bottom_plain_of_move
    {m : Move γ K V δ σ}
    {q : Plain K V}
    (hEnd : (e.move m).bottom = .plain q) :
    ∃ p : Plain K V, e.bottom = .plain p := by
  cases m with
  | cover key value config => exact ⟨q, hEnd⟩
  | act store action =>
      cases action with
      | call c => exact (e.levelwise_call c).bottom_plain hEnd
      | commit c version =>
          exact
            (e.levelwise_commit c store
              version).bottom_plain hEnd

theorem bottom_plain_of_moves
    {ms : List (Move γ K V δ σ)}
    {q : Plain K V}
    (hEnd : (e.moves ms).bottom = .plain q) :
    ∃ p : Plain K V, e.bottom = .plain p := by
  induction ms generalizing e with
  | nil => exact ⟨q, hEnd⟩
  | cons m ms ih =>
      rcases ih hEnd with ⟨r, hNext⟩
      exact bottom_plain_of_move hNext

theorem SoundBottom.move
    (h : e.SoundBottom)
    (m : Move γ K V δ σ) :
    (e.move m).SoundBottom := by
  intro q hEnd
  rcases bottom_plain_of_move hEnd with ⟨p, hBottom⟩
  have hCoherent := h p hBottom
  rcases bottom_move hBottom hCoherent m with
    ⟨q', hEnd', hStep⟩
  cases hEnd.symm.trans hEnd'
  rcases hStep with hGoesOn | hRest
  · exact hGoesOn.coherent hCoherent
  · exact hRest.coherent

theorem SoundBottom.moves
    (h : e.SoundBottom)
    (ms : List (Move γ K V δ σ)) :
    (e.moves ms).SoundBottom := by
  induction ms generalizing e with
  | nil => exact h
  | cons m ms ih => exact ih (h.move m)

end Entry

end OverlayCache

------------------------------------------------------------
-- The Last Point Before A Preparation
------------------------------------------------------------

namespace OverlayCache

namespace Entry

variable {γ K V δ ω σ : Type}
variable [Repository γ K V]
variable [Delta δ ω] [Holding V σ δ]

theorem moves_concat
    (e : Entry K V δ ω)
    (ms : List (Move γ K V δ σ))
    (m : Move γ K V δ σ) :
    e.moves (ms ++ [m]) = (e.moves ms).move m :=
  List.foldl_concat ..

/-
  The last point of a history at which the bottom of the entry
  was not prepared.  It is the end of the history if it is not
  prepared there.
-/
structure LastUnprepared
    (start : Entry K V δ ω)
    (ms earlier : List (Move γ K V δ σ)) : Prop where
  within : earlier <+: ms
  unprepared : (start.moves earlier).bottom.isChanged = false
  prepared :
    ∀ more : List (Move γ K V δ σ),
      more <+: ms →
        earlier.length < more.length →
          (start.moves more).bottom.isChanged = true

/- The end of the history, if it is not prepared there. -/
theorem LastUnprepared.last
    {start : Entry K V δ ω}
    {ms : List (Move γ K V δ σ)}
    (hUnchanged : (start.moves ms).bottom.isChanged = false) :
    start.LastUnprepared ms ms where
  within := List.prefix_rfl
  unprepared := hUnchanged
  prepared more hMore hLength := by
    have hLe := hMore.length_le
    omega

/- An earlier point, as long as it stays prepared. -/
theorem LastUnprepared.concat
    {start : Entry K V δ ω}
    {ms earlier : List (Move γ K V δ σ)}
    (h : start.LastUnprepared ms earlier)
    {m : Move γ K V δ σ}
    (hChanged :
      (start.moves (ms ++ [m])).bottom.isChanged = true) :
    start.LastUnprepared (ms ++ [m]) earlier where
  within := h.within.trans (List.prefix_append ms [m])
  unprepared := h.unprepared
  prepared more hMore hLength := by
    rcases List.prefix_concat_iff.mp hMore with rfl | hWithin
    · exact hChanged
    · exact h.prepared more hWithin hLength

/-
  Every history has such a point, and what the bottom was then
  is what a rollback brings back.
-/
theorem exists_lastUnprepared
    {p : Plain K V}
    (hRest : p.AtRest)
    (ms : List (Move γ K V δ σ)) :
    let start : Entry K V δ ω := .plain p
    ∃ (earlier : List (Move γ K V δ σ)) (q r : Plain K V),
      start.LastUnprepared ms earlier ∧
        (start.moves earlier).bottom = .plain q ∧
        (start.moves ms).bottom = .plain r ∧
        r.Coherent ∧
        r.before = ⟨q.value, q.flags⟩ := by
  intro start
  induction ms using List.reverseRecOn with
  | nil =>
      exact
        ⟨[], p, p, .last hRest.unchanged, rfl, rfl,
          hRest.coherent, hRest.before_eq⟩
  | append_singleton ms m ih =>
      rcases ih with
        ⟨earlier, q, r, hLast, hThen, hNow, hCoherent, hBefore⟩
      rcases bottom_move hNow hCoherent m with
        ⟨r', hEnd, hStep⟩
      rw [← moves_concat] at hEnd
      have hCoherent' : r'.Coherent := by
        rcases hStep with hGoesOn | hRest'
        · exact hGoesOn.coherent hCoherent
        · exact hRest'.coherent
      cases hChanged : r'.flags.changed with
      | false =>
          have hRest' := hCoherent'.atRest hChanged
          refine
            ⟨ms ++ [m], r', r', .last ?_, hEnd, hEnd,
              hCoherent', hRest'.before_eq⟩
          rw [hEnd]
          exact hChanged
      | true =>
          have hGoesOn : r.GoesOn r' := by
            rcases hStep with hGoesOn | hRest'
            · exact hGoesOn
            · rw [hRest'.unchanged] at hChanged
              cases hChanged
          refine
            ⟨earlier, q, r', hLast.concat ?_, hThen, hEnd,
              hCoherent', ?_⟩
          · rw [hEnd]
            exact hChanged
          · exact
              (hGoesOn.before_eq hCoherent hChanged).trans
                hBefore

end Entry

end OverlayCache

------------------------------------------------------------
-- Rollbacks Of Plain Entries
------------------------------------------------------------

namespace OverlayCache

namespace Entry

variable {γ K V δ ω σ : Type}
variable [Repository γ K V]
variable [Delta δ ω] [Holding V σ δ]

/- The plain entry at the bottom is coherent in every history. -/
theorem Unused.coherent_bottom
    {start : Entry K V δ ω}
    (h : start.Unused)
    {ms : List (Move γ K V δ σ)}
    {p : Plain K V}
    (hBottom : (start.moves ms).bottom = .plain p) :
    p.Coherent :=
  h.soundBottom.moves ms p hBottom

namespace Point

/-
  No transaction ends in a history: there is no rollback, and
  every commit is refused.
-/
structure StaysOpen
    (p : Point K V δ ω σ)
    (actions : List (Action γ V δ)) : Prop where
  calls :
    ∀ c : Call V δ, .call c ∈ actions → c.Continues
  commits :
    Action.OfEveryCommit actions
      (fun before c version =>
        ∃ refusal : Refusal,
          (p.outcome before c version).result =
            .error refusal)

theorem StaysOpen.tail
    {p : Point K V δ ω σ}
    {a : Action γ V δ}
    {actions : List (Action γ V δ)}
    (h : p.StaysOpen (a :: actions)) :
    (p.act a).StaysOpen actions where
  calls c hMem := h.calls c (List.mem_cons_of_mem a hMem)
  commits := (Action.ofEveryCommit_cons.mp h.commits).2

/- A plain entry stays plain, and goes on for one action. -/
theorem StaysOpen.goesOn_act
    {p : Point K V δ ω σ}
    {q : Plain K V}
    (hPlain : p.entry = .plain q)
    {a : Action γ V δ}
    {actions : List (Action γ V δ)}
    (h : p.StaysOpen (a :: actions)) :
    ∃ r : Plain K V,
      (p.act a).entry = .plain r ∧ q.GoesOn r := by
  cases p with
  | mk entry store reply =>
      simp only at hPlain
      subst hPlain
      cases a with
      | call c =>
          rcases bottom_turned (e := .plain q) rfl c with
            ⟨r, hEnd, hTurned⟩
          rcases call_plain q c with ⟨r', hEntry⟩
          rw [hEntry] at hEnd
          cases hEnd
          have hCall := h.calls c List.mem_cons_self
          exact ⟨r, hEntry, hTurned.goesOn hCall⟩
      | commit c version =>
          rcases
            (Action.ofEveryCommit_cons.mp h.commits).1 c
              version rfl with ⟨refusal, hRefused⟩
          rcases bottom_commit_of_refused (e := .plain q) rfl
              hRefused with ⟨r, hEnd, hGoesOn⟩
          exact ⟨r, hEnd, hGoesOn⟩

/- A changed entry holds on to what it was. -/
theorem StaysOpen.before_run
    {p : Point K V δ ω σ}
    {q : Plain K V}
    (hPlain : p.entry = .plain q)
    (hCoherent : q.Coherent)
    (hChanged : q.flags.changed = true)
    {actions : List (Action γ V δ)}
    (h : p.StaysOpen actions) :
    ∃ r : Plain K V,
      (p.run actions).entry = .plain r ∧
        r.Coherent ∧
        r.flags.changed = true ∧
        r.before = q.before := by
  induction actions generalizing p q with
  | nil => exact ⟨q, hPlain, hCoherent, hChanged, rfl⟩
  | cons a actions ih =>
      rcases h.goesOn_act hPlain with ⟨r, hNext, hGoesOn⟩
      have hStill := hGoesOn.changed hChanged
      rcases ih hNext (hGoesOn.coherent hCoherent) hStill
          h.tail with ⟨r', hEnd, hSound, hUp, hBefore⟩
      exact
        ⟨r', hEnd, hSound, hUp,
          hBefore.trans (hGoesOn.before_eq hCoherent hStill)⟩

end Point

/-
  Whatever happened to a plain entry, it is changed exactly
  when it holds what it was before.  If it is not changed, a
  rollback does nothing.

  Once it is prepared it may be called and its commits refused
  any number of times.  As long as the transaction does not
  end, a rollback brings back the value and the flags that the
  entry had just before the preparation, and no container and
  nothing else in a workspace is touched.
-/
theorem rollback_restores_captured
    [Ord K] [Std.TransOrd K]
    {start : Entry K V δ ω}
    (hUnused : start.Unused)
    {past : List (Move γ K V δ σ)}
    {p : Plain K V}
    (hPlain : start.moves past = .plain p) :
    p.flags.changed = p.captured.isSome ∧
      (p.flags.changed = false →
        p.rollback = (p, ([] : List (Event K δ))) ∧
          ∀ (s : σ) (actions : List (Action γ V δ)),
            let now : Point K V δ ω σ :=
              { entry := .plain p, store := s }
            now.StaysOpen (.call .prepare :: actions) →
              ∃ q : Plain K V,
                (now.run (.call .prepare :: actions)).entry =
                    .plain q ∧
                  let undone :=
                    { q with
                      value := p.value
                      flags := p.flags
                      captured := none }
                  q.rollback =
                      (undone, [(.restored q.key : Event K δ)]) ∧
                    ∀ (w : Workspace K V δ ω σ)
                      (name : String),
                      w.entry? name = some (.plain q) →
                        let w' :=
                          (w.step
                            (.callEntry name
                              .rollback)).workspace
                        w'.containers = w.containers ∧
                          w'.store = w.store ∧
                          ∀ other : String,
                            w'.entry? other =
                              if other = name then
                                some (.plain undone)
                              else
                                w.entry? other) := by
  have hCoherent : p.Coherent := by
    have hBottom : (start.moves past).bottom = .plain p := by
      rw [hPlain]
      rfl
    exact hUnused.coherent_bottom hBottom
  refine ⟨hCoherent.isSome_captured.symm, ?_⟩
  intro hUnchanged
  have hRest := hCoherent.atRest hUnchanged
  refine ⟨hRest.rollback, ?_⟩
  intro s actions now hOpen
  have hPrepared :
      (now.act (.call .prepare : Action γ V δ)).entry =
        .plain p.capture := rfl
  rcases hOpen.tail.before_run hPrepared hCoherent.capture
      (by simp) with ⟨q, hEnd, hSound, hChanged, hBefore⟩
  have hStart : p.capture.before = ⟨p.value, p.flags⟩ :=
    ((Plain.GoesOn.capture p).before_eq hCoherent
      (by simp)).trans hRest.before_eq
  have hUndone :=
    hSound.rollback_of_changed (δ := δ) hChanged
  rw [hBefore, hStart] at hUndone
  refine ⟨q, hEnd, hUndone, ?_⟩
  intro w name hEntry w'
  have hStep :
      w' = w.keepEntry name
        (.plain (q.rollback (δ := δ)).1) :=
    congrArg Workspace.Turn.workspace
      (Workspace.callEntry_eq hEntry .rollback)
  rw [hUndone] at hStep
  rw [hStep]
  exact
    ⟨rfl, rfl, fun other => w.entry?_keepEntry name other _⟩

/-
  A creation was refused, rolled back and then marked evicted.
  In the next transaction a removal is refused by a closed
  container and, after it was taken back, another value by a
  full one.
-/
theorem rollback_restores_after_refused_removal :
    let start : Entry Nat Counter CounterDelta Int64 :=
      .plain (.created 1 ⟨5, 0⟩)
    let closed : Container Nat Counter :=
      Container.close (.empty none)
    let past : List
        (Move (Container Nat Counter) Nat Counter
          CounterDelta Unit) :=
      [.act () (.call .prepare),
        .act () (.commit closed (some ⟨7⟩)),
        .act () (.call .rollback),
        .act () (.call (.mark .evicted true))]
    let actions : List
        (Action (Container Nat Counter) Counter
          CounterDelta) :=
      [.call .prepare,
        .call (.setValue none),
        .call (.mark .evicted false),
        .call (.mark .removed true),
        .commit closed none,
        .call (.undelete true),
        .call (.mark .created false),
        .call .prepare,
        .call (.setLock true),
        .call (.setValue (some ⟨8, 0⟩)),
        .call (.setVersion none),
        .commit (.empty (some 0)) (some ⟨9⟩)]
    ∃ p q : Plain Nat Counter,
      start.moves past = .plain p ∧
        (Point.run { entry := .plain p, store := () }
            actions).entry = .plain q ∧
        q.value = some ⟨8, 0⟩ ∧
        q.version = some ⟨9⟩ ∧
        (q.rollback (δ := CounterDelta)).1.value =
          some ⟨5, 0⟩ ∧
        (q.rollback (δ := CounterDelta)).1.flags =
          { created := true, valid := true, evicted := true } := by
  intro start closed past actions
  have hUnused : start.Unused := .plain ⟨rfl, rfl⟩
  have hPlain : start.moves past = .plain _ := rfl
  rcases (rollback_restores_captured hUnused hPlain).2 rfl with
    ⟨_, hRestores⟩
  have hOpen :
      ({ entry := start.moves past, store := () } :
        Point Nat Counter CounterDelta Int64 Unit).StaysOpen
        actions := by
    constructor
    · simp [actions, Call.Continues]
    · simp only [actions, Action.ofEveryCommit_call,
        Action.ofEveryCommit_commit]
      exact
        ⟨⟨.closed, rfl⟩, ⟨.full 0, rfl⟩,
          Action.ofEveryCommit_nil _⟩
  rcases hRestores () _ hOpen with ⟨q, hEnd, hUndone, _⟩
  refine ⟨_, q, hPlain, hEnd, ?_, ?_, ?_, ?_⟩
  · cases hEnd
    rfl
  · cases hEnd
    rfl
  · rw [hUndone]
    rfl
  · rw [hUndone]
    rfl

end Entry

end OverlayCache
