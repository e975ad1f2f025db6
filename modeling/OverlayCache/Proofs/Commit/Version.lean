import OverlayCache.Counter
import OverlayCache.Proofs.Commit.Bottom
import OverlayCache.Proofs.History

/-
  Versions over the history of an entry.

  A plain entry takes the version that a commit asks for
  before the repository answers, and a rollback does not give
  it back.  So the version after a history is the last one
  that was asked for, be it by a refused commit, and a later
  commit that asks for none stores that one.

  The versions are those of accepted commits throughout a
  history exactly when no refused commit of it asks for
  another version than the entry has.

  Key definitions include:
    * `Entry.Attempt`
    * `Entry.Attempt.lastVersion`
    * `Entry.Attempt.lastAccepted`
    * `Entry.Point.attempts`
    * `Entry.Point.AsksNothingNew`
    * `Entry.Point.Leaves`

  The main statements are:
    * `Entry.Point.bottom_act`
    * `Entry.Point.bottom_run`
    * `Entry.Point.lastAccepted_run`
    * `Entry.versions_accepted_iff`
-/

------------------------------------------------------------
-- Attempts
------------------------------------------------------------

namespace OverlayCache

namespace Entry

/- A commit that found something to make durable. -/
structure Attempt where
  version : Option Version
  accepted : Bool

namespace Attempt

/-
  The version after attempts, of which each one that asks for
  a version sets it.
-/
def lastVersion
    (built : Option Version)
    (ts : List Attempt) : Option Version :=
  ts.foldl (fun v t => t.version.or v) built

/- The same, had the refused attempts not been made. -/
def lastAccepted
    (built : Option Version)
    (ts : List Attempt) : Option Version :=
  lastVersion built (ts.filter (fun t => t.accepted))

theorem lastVersion_append
    (built : Option Version)
    (ts us : List Attempt) :
    lastVersion built (ts ++ us) =
      lastVersion (lastVersion built ts) us :=
  List.foldl_append

theorem lastAccepted_append
    (built : Option Version)
    (ts us : List Attempt) :
    lastAccepted built (ts ++ us) =
      lastAccepted (lastAccepted built ts) us := by
  unfold lastAccepted
  rw [List.filter_append, lastVersion_append]

end Attempt

namespace Action

variable {γ V δ : Type}

/- The actions that do not set a version by themselves. -/
def SetsNoVersion : Action γ V δ → Prop
| .call (.setVersion _) => False
| _ => True

/-
  Something holds of every commit of a history, together with
  the actions before it.
-/
def OfEveryCommit
    (actions : List (Action γ V δ))
    (holds :
      List (Action γ V δ) → γ → Option Version → Prop) :
    Prop :=
  ∀ (before : List (Action γ V δ))
    (c : γ)
    (version : Option Version),
    before ++ [.commit c version] <+: actions →
      holds before c version

theorem ofEveryCommit_nil
    (holds :
      List (Action γ V δ) → γ → Option Version → Prop) :
    OfEveryCommit [] holds := by
  intro before c version hPrefix
  simp at hPrefix

/- The first action may be a commit, and others follow. -/
theorem ofEveryCommit_cons
    {a : Action γ V δ}
    {actions : List (Action γ V δ)}
    {holds :
      List (Action γ V δ) → γ → Option Version → Prop} :
    OfEveryCommit (a :: actions) holds ↔
      (∀ (c : γ) (version : Option Version),
        a = .commit c version → holds [] c version) ∧
        OfEveryCommit actions
          (fun before => holds (a :: before)) := by
  constructor
  · intro h
    constructor
    · intro c version hEq
      subst hEq
      apply h []
      rw [List.nil_append, List.cons_prefix_cons]
      exact ⟨rfl, List.nil_prefix⟩
    · intro before c version hPrefix
      apply h (a :: before)
      rw [List.cons_append, List.cons_prefix_cons]
      exact ⟨rfl, hPrefix⟩
  · intro h before c version hPrefix
    cases before with
    | nil =>
        rw [List.nil_append, List.cons_prefix_cons] at hPrefix
        exact h.1 c version hPrefix.1.symm
    | cons b before =>
        rw [List.cons_append, List.cons_prefix_cons] at hPrefix
        rw [hPrefix.1]
        exact h.2 before c version hPrefix.2

theorem ofEveryCommit_call
    {c : Call V δ}
    {actions : List (Action γ V δ)}
    {holds :
      List (Action γ V δ) → γ → Option Version → Prop} :
    OfEveryCommit (.call c :: actions) holds ↔
      OfEveryCommit actions
        (fun before => holds (.call c :: before)) := by
  simp [ofEveryCommit_cons]

theorem ofEveryCommit_commit
    {c : γ}
    {version : Option Version}
    {actions : List (Action γ V δ)}
    {holds :
      List (Action γ V δ) → γ → Option Version → Prop} :
    OfEveryCommit (.commit c version :: actions) holds ↔
      holds [] c version ∧
        OfEveryCommit actions
          (fun before =>
            holds (.commit c version :: before)) := by
  simp [ofEveryCommit_cons]

end Action

variable {γ K V δ ω σ : Type}
variable [Repository γ K V]
variable [Delta δ ω] [Holding V σ δ]

namespace Point

/- The attempt that an action makes, if it makes one. -/
def attempt
    (p : Point K V δ ω σ) :
    Action γ V δ → List Attempt
| .call _ => []
| .commit c version =>
    if p.entry.isTouched then
      [{ version := version
         accepted :=
          (p.entry.commit c p.store version).result.isOk }]
    else
      []

/- The attempts of a history, in order. -/
def attempts
    (p : Point K V δ ω σ) :
    List (Action γ V δ) → List Attempt
| [] => []
| a :: actions => p.attempt a ++ (p.act a).attempts actions

/- What comes out of a commit that follows some actions. -/
def outcome
    (p : Point K V δ ω σ)
    (before : List (Action γ V δ))
    (c : γ)
    (version : Option Version) : Outcome γ K V δ ω σ :=
  (p.run before).entry.commit c (p.run before).store version

end Point

end Entry

end OverlayCache

------------------------------------------------------------
-- Bottoms Under Calls
------------------------------------------------------------

namespace OverlayCache

namespace Entry

variable {K V δ ω : Type}

/- A rollback does not give a version back. -/
theorem version_rollback
    (p : Plain K V) :
    (p.rollback (δ := δ)).1.version = p.version := by
  unfold Plain.rollback
  cases p.captured with
  | none => rfl
  | some before => rfl

/- The bottom stays a plain entry, and its version the same. -/
theorem bottom_call
    [Delta δ ω]
    {γ : Type}
    {e : Entry K V δ ω}
    {p : Plain K V}
    (hBottom : e.bottom = .plain p)
    {c : Call V δ}
    (hCall : (Action.call (γ := γ) c).SetsNoVersion) :
    ∃ q : Plain K V,
      (e.call c).entry.bottom = .plain q ∧
        q.version = p.version := by
  rcases bottom_turned hBottom c with ⟨q, hEnd, hTurned⟩
  refine ⟨q, hEnd, ?_⟩
  cases hTurned with
  | kept value hChanged => rfl
  | versioned version => exact hCall.elim
  | prepared => exact p.version_capture
  | restored => exact version_rollback p

end Entry

end OverlayCache

------------------------------------------------------------
-- Versions After Histories
------------------------------------------------------------

namespace OverlayCache

namespace Entry

namespace Point

variable {γ K V δ ω σ : Type}
variable [Repository γ K V]
variable [Delta δ ω] [Holding V σ δ]

/- An action leaves the version that its attempt asks for. -/
theorem bottom_act
    {p : Point K V δ ω σ}
    {q : Plain K V}
    (hBottom : p.entry.bottom = .plain q)
    {a : Action γ V δ}
    (hAct : a.SetsNoVersion) :
    ∃ q' : Plain K V,
      (p.act a).entry.bottom = .plain q' ∧
        q'.version =
          Attempt.lastVersion q.version (p.attempt a) := by
  cases a with
  | call c => exact bottom_call hBottom hAct
  | commit c version =>
      simp only [act, attempt]
      cases hTouched : p.entry.isTouched with
      | false =>
          have hEnd :=
            bottom_commit_of_untouched hBottom hTouched c
              p.store version
          exact ⟨q, hEnd.2.2, rfl⟩
      | true =>
          rcases bottom_commit_of_touched hBottom hTouched c
              p.store version with
            ⟨_, _, _, hEnd⟩ | ⟨_, _, hEnd⟩
          · exact ⟨_, hEnd, rfl⟩
          · exact ⟨_, hEnd, rfl⟩

/- The version after a history is the last one asked for. -/
theorem bottom_run
    {p : Point K V δ ω σ}
    {q : Plain K V}
    (hBottom : p.entry.bottom = .plain q)
    {actions : List (Action γ V δ)}
    (hActions : ∀ a ∈ actions, a.SetsNoVersion) :
    ∃ q' : Plain K V,
      (p.run actions).entry.bottom = .plain q' ∧
        q'.version =
          Attempt.lastVersion q.version
            (p.attempts actions) := by
  induction actions generalizing p q with
  | nil => exact ⟨q, hBottom, rfl⟩
  | cons a actions ih =>
      rcases bottom_act hBottom
          (hActions a List.mem_cons_self) with
        ⟨q₁, hFirst, hVersion⟩
      rcases ih hFirst
          (fun b hMem =>
            hActions b (List.mem_cons_of_mem a hMem)) with
        ⟨q₂, hLast, hVersions⟩
      refine ⟨q₂, hLast, ?_⟩
      rw [hVersions, hVersion, attempts,
        Attempt.lastVersion_append]

/-
  A commit asks for no version, or for the one that the entry
  has, or it is not refused.
-/
def AsksNothingNew
    (p : Point K V δ ω σ)
    (before : List (Action γ V δ))
    (c : γ)
    (version : Option Version) : Prop :=
  ∀ refusal : Refusal,
    (p.outcome before c version).result = .error refusal →
      version = none ∨
        version = (p.run before).entry.bottom.version

/- A refused attempt for nothing new can be left out. -/
theorem lastAccepted_attempt
    {p : Point K V δ ω σ}
    {a : Action γ V δ}
    {actions : List (Action γ V δ)}
    (hAsks :
      Action.OfEveryCommit (a :: actions) p.AsksNothingNew) :
    Attempt.lastAccepted p.entry.bottom.version
        (p.attempt a) =
      Attempt.lastVersion p.entry.bottom.version
        (p.attempt a) := by
  cases a with
  | call c => rfl
  | commit c version =>
      simp only [attempt]
      cases hTouched : p.entry.isTouched with
      | false => rfl
      | true =>
          cases hResult :
              (p.entry.commit c p.store version).result with
          | ok u => rfl
          | error refusal =>
              have hFirst :=
                (Action.ofEveryCommit_cons.mp hAsks).1
                  c version rfl
              rcases hFirst refusal hResult with
                hNone | hSame
              · subst hNone
                rfl
              · change
                  p.entry.bottom.version =
                    version.or p.entry.bottom.version
                rw [hSame, run_nil]
                exact Option.or_self.symm

/-
  When refused commits ask for nothing new, the version after
  a history is the last accepted one.
-/
theorem lastAccepted_run
    {p : Point K V δ ω σ}
    {q : Plain K V}
    (hBottom : p.entry.bottom = .plain q)
    {actions : List (Action γ V δ)}
    (hActions : ∀ a ∈ actions, a.SetsNoVersion)
    (hAsks : Action.OfEveryCommit actions p.AsksNothingNew) :
    (p.run actions).entry.bottom.version =
      Attempt.lastAccepted q.version
        (p.attempts actions) := by
  induction actions generalizing p q with
  | nil =>
      rw [run_nil, hBottom]
      rfl
  | cons a actions ih =>
      rcases bottom_act hBottom
          (hActions a List.mem_cons_self) with
        ⟨q₁, hFirst, hVersion⟩
      have hRest :=
        ih hFirst
          (fun b hMem =>
            hActions b (List.mem_cons_of_mem a hMem))
          (Action.ofEveryCommit_cons.mp hAsks).2
      have hSame := lastAccepted_attempt hAsks
      rw [hBottom] at hSame
      rw [run_cons, hRest, attempts,
        Attempt.lastAccepted_append, hVersion]
      exact congrArg
        (fun v =>
          Attempt.lastAccepted v
            ((p.act a).attempts actions))
        hSame.symm

end Point

end Entry

end OverlayCache

------------------------------------------------------------
-- Versions Of Accepted Commits
------------------------------------------------------------

namespace OverlayCache

namespace Entry

variable {γ K V δ ω σ : Type}
variable [ReadableRepository γ K V]
variable [Delta δ ω] [Holding V σ δ]

namespace Point

/-
  The versions that a commit leaves: that of the entry after a
  refusal, which a rollback does not alter, and that which is
  stored with the value that an accepted commit puts.
-/
structure Leaves
    (p : Point K V δ ω σ)
    (before : List (Action γ V δ))
    (c : γ)
    (version ofEntry ofStored : Option Version) :
    Prop where
  refused :
    ∀ refusal : Refusal,
      (p.outcome before c version).result =
          .error refusal →
        (p.outcome before c version).entry.bottom.version =
          ofEntry
  restored :
    ∀ refusal : Refusal,
      (p.outcome before c version).result =
          .error refusal →
        (p.outcome before c
            version).entry.rollback.1.bottom.version =
          ofEntry
  stored :
    ∀ value : V,
      (p.run before).entry.offer? = some value →
        (p.outcome before c version).result = .ok () →
          ReadableRepository.stored?
              (p.outcome before c version).container
              (p.run before).entry.bottom.key =
            some ⟨value, ofStored⟩

/- A refused commit is taken at its word, like any other. -/
theorem leaves_asked
    {p : Point K V δ ω σ}
    {q : Plain K V}
    {before : List (Action γ V δ)}
    (hBottom : (p.run before).entry.bottom = .plain q)
    (c : γ)
    (version : Option Version) :
    p.Leaves before c version (version.or q.version)
      (version.or q.version) := by
  have hRefused :
      ∀ refusal : Refusal,
        (p.outcome before c version).result =
            .error refusal →
          ∃ r : Plain K V,
            (p.outcome before c version).entry.bottom =
                .plain r ∧
              r.version = version.or q.version := by
    intro refusal hResult
    unfold outcome at hResult ⊢
    cases hTouched : (p.run before).entry.isTouched with
    | false =>
        have hOk :=
          (bottom_commit_of_untouched hBottom hTouched c
            (p.run before).store version).1
        rw [hOk] at hResult
        cases hResult
    | true =>
        rcases bottom_commit_of_touched hBottom hTouched c
            (p.run before).store version with
          ⟨_, _, _, hEnd⟩ | ⟨_, hOk, _⟩
        · exact ⟨_, hEnd, rfl⟩
        · rw [hOk] at hResult
          cases hResult
  constructor
  · intro refusal hResult
    rcases hRefused refusal hResult with ⟨r, hEnd, hVersion⟩
    rw [hEnd]
    exact hVersion
  · intro refusal hResult
    rcases hRefused refusal hResult with ⟨r, hEnd, hVersion⟩
    rw [bottom_rollback, hEnd]
    exact (version_rollback r).trans hVersion
  · intro value hOffer hOk
    rw [hBottom]
    exact (stored?_commit hBottom hOffer hOk).1

end Point

/-
  Throughout a history that sets no version, a commit leaves
  the last version that any commit asked for.  That is the
  version of the last accepted commit, and no refused one
  alters it, exactly when no refused commit asks for another
  version than the entry has.
-/
theorem versions_accepted_iff
    {e : Entry K V δ ω}
    {p : Plain K V}
    (hBottom : e.bottom = .plain p)
    (s : σ)
    {actions : List (Action γ V δ)}
    (hActions : ∀ a ∈ actions, a.SetsNoVersion) :
    let start : Point K V δ ω σ := { entry := e, store := s }
    Action.OfEveryCommit actions
        (fun before c version =>
          let last :=
            Attempt.lastVersion p.version
              (start.attempts before)
          start.Leaves before c version
            (version.or last) (version.or last)) ∧
      (Action.OfEveryCommit actions
          (fun before c version =>
            let last :=
              Attempt.lastAccepted p.version
                (start.attempts before)
            start.Leaves before c version
              (start.run before).entry.bottom.version
              (version.or last)) ↔
        Action.OfEveryCommit actions start.AsksNothingNew) := by
  intro start
  have hBefore :
      ∀ {before : List (Action γ V δ)} {c : γ}
        {version : Option Version},
        before ++ [.commit c version] <+: actions →
          ∀ a ∈ before, a.SetsNoVersion := by
    intro before c version hPrefix a hMem
    apply hActions a
    exact hPrefix.subset (List.mem_append_left _ hMem)
  refine ⟨?_, ?_, ?_⟩
  · intro before c version hPrefix last
    rcases Point.bottom_run (p := start) hBottom
        (hBefore hPrefix) with
      ⟨q, hEnd, hVersion⟩
    have hLeaves := Point.leaves_asked hEnd c version
    rw [hVersion] at hLeaves
    exact hLeaves
  · intro hKept before c version hPrefix refusal hRefused
    rcases Point.bottom_run (p := start) hBottom
        (hBefore hPrefix) with
      ⟨q, hEnd, _⟩
    have hAsked :=
      (Point.leaves_asked hEnd c version).refused
        refusal hRefused
    have hSame :=
      (hKept before c version hPrefix).refused
        refusal hRefused
    rw [hAsked, hEnd] at hSame
    cases version with
    | none => exact Or.inl rfl
    | some v =>
        right
        rw [hEnd]
        exact hSame
  · intro hAsks before c version hPrefix last
    rcases Point.bottom_run (p := start) hBottom
        (hBefore hPrefix) with
      ⟨q, hEnd, _⟩
    have hLast :
        (start.run before).entry.bottom.version = last := by
      apply Point.lastAccepted_run hBottom (hBefore hPrefix)
      intro earlier c' version' hEarlier
      apply hAsks earlier c' version'
      exact
        hEarlier.trans
          ((List.prefix_append before _).trans hPrefix)
    have hLeaves := Point.leaves_asked hEnd c version
    have hVersion : q.version = last := by
      rw [← hLast, hEnd]
      rfl
    have hKept :
        ∀ refusal : Refusal,
          (start.outcome before c version).result =
              .error refusal →
            version.or q.version =
              (start.run before).entry.bottom.version := by
      intro refusal hRefused
      rw [hEnd]
      rcases hAsks before c version hPrefix
          refusal hRefused with
        hNone | hSame
      · rw [hNone]
        rfl
      · rw [hSame, hEnd]
        exact Option.or_self
    constructor
    · intro refusal hRefused
      exact
        (hLeaves.refused refusal hRefused).trans
          (hKept refusal hRefused)
    · intro refusal hRefused
      exact
        (hLeaves.restored refusal hRefused).trans
          (hKept refusal hRefused)
    · intro value hOffer hOk
      rw [← hVersion]
      exact hLeaves.stored value hOffer hOk

/-
  Two commits are refused that ask for nothing new, and one
  asks for another version and is accepted.  Its version stays
  with the value.
-/
def patient :
    List
      (Action (Container Nat Counter) Counter
        CounterDelta) :=
  [.call (.append (.add 1)),
    .commit (Container.close (.empty none)) none,
    .commit (.empty (some 0)) (some ⟨4⟩),
    .call .rollback,
    .call (.append (.add 2)),
    .commit (.empty none) (some ⟨9⟩),
    .call .prepare,
    .commit (.empty none) none]

theorem stored_version_of_patient :
    let p : Plain Nat Counter :=
      { key := 1, value := some ⟨5, 0⟩, version := some ⟨4⟩ }
    let e : Entry Nat Counter CounterDelta Int64 :=
      .stacked (.fresh 1 (some ⟨5, 0⟩) {}) (.plain p)
    let start : Point Nat Counter CounterDelta Int64 Unit :=
      { entry := e, store := () }
    let c : Container Nat Counter := .empty none
    (start.outcome (patient.take 7) c
        none).container.stored? 1 =
      some ⟨⟨5, 0⟩, some ⟨9⟩⟩ := by
  intro p e start c
  have hActions : ∀ a ∈ patient, a.SetsNoVersion := by
    simp [patient, Action.SetsNoVersion]
  have hAccepted :
      (start.outcome (patient.take 5) c
        (some ⟨9⟩)).result = .ok () := rfl
  have hOk :
      (start.outcome (patient.take 7) c
        none).result = .ok () := rfl
  have hAsks :
      Action.OfEveryCommit patient start.AsksNothingNew := by
    simp only [patient, Action.ofEveryCommit_cons]
    refine
      ⟨nofun, ?_, ?_, nofun, nofun, ?_, nofun, ?_,
        Action.ofEveryCommit_nil _⟩
    · intro c version hEq refusal hRefused
      cases hEq
      exact Or.inl rfl
    · intro c version hEq refusal hRefused
      cases hEq
      exact Or.inr rfl
    · intro c version hEq refusal hRefused
      cases hEq
      cases hAccepted.symm.trans hRefused
    · intro c version hEq refusal hRefused
      cases hEq
      exact Or.inl rfl
  have hKept :=
    (versions_accepted_iff (e := e) (p := p) rfl ()
      hActions).2.mpr hAsks
  have hOffer :
      (start.run (patient.take 7)).entry.offer? =
        some ⟨5, 0⟩ := by
    decide +kernel
  have hKey :
      (start.run (patient.take 7)).entry.bottom.key = 1 := by
    decide +kernel
  have hVersion :
      Attempt.lastAccepted p.version
        (start.attempts (patient.take 7)) = some ⟨9⟩ := by
    decide +kernel
  have hStored :=
    (hKept (patient.take 7) c none List.prefix_rfl).stored
      ⟨5, 0⟩ hOffer hOk
  rw [hKey, hVersion] at hStored
  exact hStored

/-
  A closed container refuses a creation at a version.  The
  creation is rolled back and then committed elsewhere without
  a version.
-/
def leaking :
    List
      (Action (Container Nat Counter) Counter
        CounterDelta) :=
  [.call .prepare,
    .commit (Container.close (.empty none)) (some ⟨7⟩),
    .call .rollback,
    .call .prepare,
    .commit (.empty none) none]

theorem stored_version_of_leaking :
    let start : Point Nat Counter CounterDelta Int64 Unit :=
      { entry := .plain (.created 1 ⟨5, 0⟩), store := () }
    let c : Container Nat Counter := .empty none
    let refused :=
      start.outcome (leaking.take 1) c.close (some ⟨7⟩)
    let accepted := start.outcome (leaking.take 4) c none
    (start.run (leaking.take 1)).entry.bottom.version =
        none ∧
      refused.result = .error .closed ∧
      refused.entry.bottom.version = some ⟨7⟩ ∧
      refused.entry.rollback.1.bottom.version = some ⟨7⟩ ∧
      accepted.result = .ok () ∧
      accepted.container.stored? 1 =
        some ⟨⟨5, 0⟩, some ⟨7⟩⟩ ∧
      Attempt.lastAccepted none
        (start.attempts (leaking.take 4)) = none := by
  intro start c refused accepted
  refine ⟨rfl, rfl, rfl, rfl, ?_, ?_, rfl⟩
  · rfl
  · decide

end Entry

end OverlayCache
