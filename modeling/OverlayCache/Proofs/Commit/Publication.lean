import OverlayCache.Proofs.Commit.Alike

/-
  What a commit does to a repository.

  However many layers lie over a plain entry, their commit
  reaches the repository once, at the bottom of the stack,
  and only if some level was written to.  So what the commit
  does there is told from the plain entry, as it was before.

  A repository can be read when it keeps what was put under a
  key, and changes no other key.  Containers can be read.

  Key definitions include:
    * `ReadableRepository`
    * `Entry.isTouched`
    * `Entry.offer?`

  The main statements are:
    * `Plain.commit_cases`
    * `Entry.bottom_commit`
    * `Entry.stored?_commit`
-/

------------------------------------------------------------
-- Repositories That Can Be Read
------------------------------------------------------------

namespace OverlayCache

/-
  A repository whose keys can be read.  A value that was put
  is read under its key, with its version, and the other keys
  read as before.
-/
class ReadableRepository (γ : Type) (K V : outParam Type)
    extends Repository γ K V where
  stored? : γ → K → Option (Stored V)
  stored?_of_put
    {c c' : γ}
    {key : K}
    {value : V}
    {version : Option Version}
    (hPut : put c key value version = .ok c') :
    stored? c' key = some ⟨value, version⟩
  stored?_of_put_of_ne
    {c c' : γ}
    {key other : K}
    {value : V}
    {version : Option Version}
    (hPut : put c key value version = .ok c')
    (hNe : other ≠ key) :
    stored? c' other = stored? c other

namespace ReadableRepository

variable {γ K V : Type} [ReadableRepository γ K V]

/- The value under a key. -/
def get? (c : γ) (key : K) : Option V :=
  (stored? c key).map (fun s => s.value)

end ReadableRepository

namespace Container

variable {K V : Type} [Ord K] [Std.TransOrd K]

/- What a container holds after it took a value. -/
theorem stored?_of_put
    [Std.LawfulEqOrd K] [DecidableEq K]
    {c c' : Container K V}
    {key : K}
    {value : V}
    {version : Option Version}
    (hPut : c.put key value version = .ok c')
    (other : K) :
    c'.stored? other =
      if other = key then
        some ⟨value, version⟩
      else
        c.stored? other := by
  unfold put at hPut
  cases hRefusal : c.refusal? key with
  | some refusal => simp [hRefusal] at hPut
  | none =>
      simp only [hRefusal, Except.ok.injEq] at hPut
      subst hPut
      exact c.stored?_insert key other ⟨value, version⟩

theorem version?_of_put
    [Std.LawfulEqOrd K] [DecidableEq K]
    {c c' : Container K V}
    {key : K}
    {value : V}
    {version : Option Version}
    (hPut : c.put key value version = .ok c')
    (other : K) :
    c'.version? other =
      if other = key then version else c.version? other := by
  unfold version?
  rw [stored?_of_put hPut]
  split
  · rfl
  · rfl

/- Containers can be read. -/
instance readable
    [Std.LawfulEqOrd K] [DecidableEq K] :
    ReadableRepository (Container K V) K V where
  stored? := Container.stored?
  stored?_of_put {c c' key value version} hPut := by
    rw [Container.stored?_of_put hPut]
    exact if_pos rfl
  stored?_of_put_of_ne
      {c c' key other value version} hPut hNe := by
    rw [Container.stored?_of_put hPut]
    exact if_neg hNe

end Container

end OverlayCache

------------------------------------------------------------
-- Commits Of Plain Entries
------------------------------------------------------------

namespace OverlayCache

namespace Plain

variable {γ K V δ : Type}

/- A preparation does not change what is to be published. -/
@[simp] theorem publication_capture (p : Plain K V) :
    p.capture.publication = p.publication := by
  unfold publication
  simp

variable [Repository γ K V]

/-
  The commit of a changed entry asks for its version before
  the repository answers, and keeps it either way.
-/
theorem commit_cases
    {p : Plain K V}
    (hChanged : p.flags.changed = true)
    (c : γ)
    (version : Option Version) :
    let v := version.or p.version
    let r := p.commit (δ := δ) c version
    (∃ refusal : Refusal,
      p.publication.carryOut p.key v c = .error refusal ∧
        r.result = .error refusal ∧
        r.container = c ∧
        r.entry = { p with version := v }) ∨
      (p.publication.carryOut p.key v c = .ok r.container ∧
        r.result = .ok () ∧
        r.entry = finish { p with version := v }) := by
  intro v r
  have hSame :
      publication { p with version := v } =
        p.publication := rfl
  cases hCarried : p.publication.carryOut p.key v c with
  | error refusal =>
      left
      refine ⟨refusal, rfl, ?_⟩
      simp only [r, commit, hChanged, if_true]
      rw [hSame, hCarried]
      exact ⟨rfl, rfl, rfl⟩
  | ok c' =>
      right
      simp only [r, commit, hChanged, if_true]
      rw [hSame, hCarried]
      exact ⟨rfl, rfl, rfl⟩

/- The commit of an unchanged entry does nothing. -/
theorem commit_of_unchanged
    {p : Plain K V}
    (hUnchanged : p.flags.changed = false)
    (c : γ)
    (version : Option Version) :
    p.commit (δ := δ) c version =
      { entry := p
        container := c
        events := []
        result := .ok () } := by
  simp [commit, hUnchanged]

end Plain

end OverlayCache

------------------------------------------------------------
-- Bottoms Of Stacks
------------------------------------------------------------

namespace OverlayCache

namespace Entry

variable {γ K V δ ω σ : Type}

/- Whether the current transaction wrote to some level. -/
def isTouched : Entry K V δ ω → Bool
| .plain p => p.flags.changed
| .alone l => l.flags.changed
| .stacked l below => l.flags.changed || below.isTouched

/- The lifecycle of the key is that of the bottom. -/
theorem is_bottom
    (e : Entry K V δ ω)
    {flag : Flag}
    (hNe : flag ≠ .changed) :
    e.bottom.is flag = e.is flag := by
  induction e with
  | plain p => rfl
  | alone l => rfl
  | stacked l below ih => simp [bottom, is, hNe, ih]

/- The flags at the bottom tell the lifecycle of the key. -/
theorem is_eq_has_bottom
    (e : Entry K V δ ω)
    {flag : Flag}
    (hNe : flag ≠ .changed) :
    e.is flag = e.bottom.ownFlags.has flag := by
  induction e with
  | plain p => rfl
  | alone l => rfl
  | stacked l below ih =>
      simp only [is, if_neg hNe]
      exact ih

theorem isTouched_of_isChanged
    {e : Entry K V δ ω}
    (hChanged : e.isChanged = true) :
    e.isTouched = true := by
  cases e with
  | plain p => exact hChanged
  | alone l => exact hChanged
  | stacked l below =>
      simp only [isTouched, Bool.or_eq_true]
      exact Or.inl hChanged

/- Nothing was written to a bottom that no level changed. -/
theorem isTouched_of_bottom
    {e : Entry K V δ ω}
    (hTouched : e.bottom.isTouched = true) :
    e.isTouched = true := by
  induction e with
  | plain p => exact hTouched
  | alone l => exact hTouched
  | stacked l below ih =>
      simp only [isTouched, Bool.or_eq_true]
      exact Or.inr (ih hTouched)

theorem unchanged_of_untouched
    {e : Entry K V δ ω}
    {p : Plain K V}
    (hBottom : e.bottom = .plain p)
    (hUntouched : e.isTouched = false) :
    p.flags.changed = false := by
  cases hChanged : p.flags.changed with
  | false => rfl
  | true =>
      have hTouched : e.isTouched = true := by
        apply isTouched_of_bottom
        rw [hBottom]
        exact hChanged
      rw [hUntouched] at hTouched
      cases hTouched

theorem bottom_prepare (e : Entry K V δ ω) :
    e.prepare.1.bottom = e.bottom.prepare.1 := by
  induction e with
  | plain p => rfl
  | alone l => rfl
  | stacked l below ih => exact ih

/-
  The first pass of a commit prepares the bottom of a stack in
  which some level was written to.
-/
theorem bottom_ready (e : Entry K V δ ω) :
    e.ready.1.bottom =
      if e.isTouched then e.bottom.prepare.1 else e.bottom := by
  induction e with
  | plain p =>
      by_cases hChanged : p.flags.changed = true
      · simp [ready, isTouched, bottom, prepare,
          Plain.capture, hChanged]
      · simp [ready, isTouched, bottom, hChanged]
  | alone l =>
      by_cases hChanged : l.flags.changed = true
      · simp [ready, isTouched, bottom, prepare,
          Layer.start, hChanged]
      · simp [ready, isTouched, bottom, hChanged]
  | stacked l below ih =>
      by_cases hLow :
          (l.flags.changed && !below.isChanged) = true
      · have hUp : l.flags.changed = true :=
          (Bool.and_eq_true_iff.mp hLow).1
        have hTouched : (stacked l below).isTouched = true :=
          isTouched_of_isChanged hUp
        simp only [ready, hLow, hTouched, if_true, bottom]
        exact below.bottom_prepare
      · -- A changed layer lies over a changed entry here.
        have hSame :
            (stacked l below).isTouched = below.isTouched := by
          cases hUp : l.flags.changed with
          | false => simp [isTouched, hUp]
          | true =>
              have hBelow : below.isChanged = true := by
                simpa [hUp] using hLow
              simp [isTouched, isTouched_of_isChanged hBelow]
        simp only [ready, hLow, bottom, hSame]
        exact ih

variable [Repository γ K V]
variable [Delta δ ω] [Holding V σ δ]

/- The second pass reaches the repository at the bottom. -/
theorem settle_bottom
    (e : Entry K V δ ω)
    (version : Option Version)
    (c : γ)
    (s : σ) :
    let o := e.settle version c s
    let b := e.bottom.settle version c s
    o.result = b.result ∧
      o.container = b.container ∧
      o.entry.bottom = b.entry.bottom := by
  induction e with
  | plain p => exact ⟨rfl, rfl, rfl⟩
  | alone l => exact ⟨rfl, rfl, rfl⟩
  | stacked l below ih =>
      rcases ih with ⟨hResult, hContainer, hBottom⟩
      simp only [settle, bottom]
      cases hBelow : (below.settle version c s).result with
      | error refusal =>
          exact
            ⟨hBelow.symm.trans hResult, hContainer, hBottom⟩
      | ok u =>
          exact
            ⟨hBelow.symm.trans hResult, hContainer, hBottom⟩

/- The commit of a stack is, for all below it, a plain one. -/
theorem bottom_commit
    {e : Entry K V δ ω}
    {p : Plain K V}
    (hBottom : e.bottom = .plain p)
    (c : γ)
    (s : σ)
    (version : Option Version) :
    let q := if e.isTouched then p.capture else p
    let o := e.commit c s version
    let r := q.commit (δ := δ) c version
    o.result = r.result ∧
      o.container = r.container ∧
      o.entry.bottom = .plain r.entry := by
  intro q o r
  have hReady : e.ready.1.bottom = .plain q := by
    rw [bottom_ready, hBottom]
    by_cases hTouched : e.isTouched = true
    · simp [q, hTouched, prepare]
    · simp [q, hTouched]
  have hSettled := e.ready.1.settle_bottom version c s
  rw [hReady] at hSettled
  exact hSettled

end Entry

end OverlayCache

------------------------------------------------------------
-- Commits Over Plain Entries
------------------------------------------------------------

namespace OverlayCache

namespace Entry

variable {γ K V δ ω σ : Type}

/-
  The value that a commit puts into the repository, if it puts
  one there.
-/
def offer? (e : Entry K V δ ω) : Option V :=
  if e.isTouched && e.is .valid && !e.is .removed then
    e.bottom.value
  else
    none

variable {e : Entry K V δ ω}
variable {p : Plain K V}

/- The plain entry at the bottom decides what is offered. -/
theorem offer?_of_bottom
    (hBottom : e.bottom = .plain p) :
    e.offer? =
      if e.isTouched && p.flags.valid && !p.flags.removed then
        p.value
      else
        none := by
  have hFlag :
      ∀ flag : Flag,
        flag ≠ .changed → e.is flag = p.flags.has flag := by
    intro flag hNe
    rw [e.is_eq_has_bottom hNe, hBottom]
    rfl
  unfold offer?
  rw [hFlag .valid (by decide), hFlag .removed (by decide),
    hBottom]
  rfl

/- An offered value is what the plain entry publishes. -/
theorem publication_of_offer?
    (hBottom : e.bottom = .plain p)
    {value : V}
    (hOffer : e.offer? = some value) :
    e.isTouched = true ∧ p.publication = .put value := by
  rw [offer?_of_bottom hBottom] at hOffer
  by_cases hOpen :
      (e.isTouched && p.flags.valid &&
        !p.flags.removed) = true
  · rw [if_pos hOpen] at hOffer
    simp only [Bool.and_eq_true, Bool.not_eq_true'] at hOpen
    refine ⟨hOpen.1.1, ?_⟩
    simp [Plain.publication, hOpen.2, hOpen.1.2, hOffer]
  · rw [if_neg hOpen] at hOffer
    cases hOffer

variable [Delta δ ω] [Holding V σ δ]

/- A stack that was not written to is not committed at all. -/
theorem bottom_commit_of_untouched
    [Repository γ K V]
    (hBottom : e.bottom = .plain p)
    (hUntouched : e.isTouched = false)
    (c : γ)
    (s : σ)
    (version : Option Version) :
    let o := e.commit c s version
    o.result = .ok () ∧
      o.container = c ∧
      o.entry.bottom = .plain p := by
  intro o
  have hUnchanged := unchanged_of_untouched hBottom hUntouched
  have hCommit := bottom_commit hBottom c s version
  simp only [hUntouched] at hCommit
  rw [if_neg (by decide),
    Plain.commit_of_unchanged hUnchanged] at hCommit
  exact hCommit

/-
  A stack that was written to is refused with its version set
  and the rest prepared, or the repository carries out what
  the plain entry publishes and the transaction is over.
-/
theorem bottom_commit_of_touched
    [Repository γ K V]
    (hBottom : e.bottom = .plain p)
    (hTouched : e.isTouched = true)
    (c : γ)
    (s : σ)
    (version : Option Version) :
    let v := version.or p.version
    let o := e.commit c s version
    (∃ refusal : Refusal,
      o.result = .error refusal ∧
        o.container = c ∧
        o.entry.bottom =
          .plain { p.capture with version := v }) ∨
      (p.publication.carryOut p.key v c = .ok o.container ∧
        o.result = .ok () ∧
        o.entry.bottom =
          .plain
            (Plain.finish { p.capture with version := v })) := by
  intro v o
  have hCommit := bottom_commit hBottom c s version
  simp only [hTouched, if_true] at hCommit
  rcases hCommit with ⟨hResult, hContainer, hEnd⟩
  rcases Plain.commit_cases (δ := δ) (p := p.capture)
      (by simp) c version with
    ⟨refusal, _, hRefused, hSame, hEntry⟩ |
    ⟨hCarried, hOk, hEntry⟩
  · left
    rw [hEntry, Plain.version_capture] at hEnd
    exact
      ⟨refusal, hResult.trans hRefused,
        hContainer.trans hSame, hEnd⟩
  · right
    rw [Plain.publication_capture, Plain.key_capture,
      Plain.version_capture, ← hContainer] at hCarried
    rw [hEntry, Plain.version_capture] at hEnd
    exact ⟨hCarried, hResult.trans hOk, hEnd⟩

/- An accepted commit carries the publication out. -/
theorem carryOut_of_ok
    [Repository γ K V]
    (hBottom : e.bottom = .plain p)
    (hTouched : e.isTouched = true)
    {c : γ}
    {s : σ}
    {version : Option Version}
    (hOk : (e.commit c s version).result = .ok ()) :
    p.publication.carryOut p.key (version.or p.version) c =
      .ok (e.commit c s version).container := by
  rcases bottom_commit_of_touched hBottom hTouched c s
      version with
    ⟨refusal, hRefused, _⟩ | ⟨hCarried, _⟩
  · rw [hRefused] at hOk
    cases hOk
  · exact hCarried

/-
  The repository decides about the commit that offers it a
  value, and takes the value if the commit goes through.
-/
theorem commit_of_offer?
    [Repository γ K V]
    (hBottom : e.bottom = .plain p)
    {value : V}
    (hOffer : e.offer? = some value)
    (c : γ)
    (s : σ)
    (version : Option Version) :
    let v := version.or p.version
    let o := e.commit c s version
    (∀ c' : γ,
      Repository.put c p.key value v = .ok c' →
        o.result = .ok () ∧ o.container = c') ∧
      ∀ refusal : Refusal,
        Repository.put c p.key value v = .error refusal →
          o.result = .error refusal := by
  intro v o
  rcases publication_of_offer? hBottom hOffer with
    ⟨hTouched, hPut⟩
  have hCommit := bottom_commit hBottom c s version
  simp only [hTouched, if_true] at hCommit
  rcases hCommit with ⟨hResult, hContainer, _⟩
  rcases Plain.commit_cases (δ := δ) (p := p.capture)
      (by simp) c version with
    ⟨refusal, hCarried, hRefused, _⟩ | ⟨hCarried, hOk, _⟩
  · rw [Plain.publication_capture, Plain.key_capture,
      Plain.version_capture, hPut] at hCarried
    constructor
    · intro c' hTaken
      cases hTaken.symm.trans hCarried
    · intro refusal' hRefusal
      cases hRefusal.symm.trans hCarried
      exact hResult.trans hRefused
  · rw [Plain.publication_capture, Plain.key_capture,
      Plain.version_capture, hPut, ← hContainer] at hCarried
    constructor
    · intro c' hTaken
      cases hTaken.symm.trans hCarried
      exact ⟨hResult.trans hOk, rfl⟩
    · intro refusal hRefusal
      cases hRefusal.symm.trans hCarried

/-
  An offered value is found under the key of the plain entry
  once the commit has gone through, at the version that was
  asked for or else at that of the entry.  The other keys read
  as before.
-/
theorem stored?_commit
    [ReadableRepository γ K V]
    (hBottom : e.bottom = .plain p)
    {value : V}
    (hOffer : e.offer? = some value)
    {c : γ}
    {s : σ}
    {version : Option Version}
    (hOk : (e.commit c s version).result = .ok ()) :
    let c' := (e.commit c s version).container
    ReadableRepository.stored? c' p.key =
        some ⟨value, version.or p.version⟩ ∧
      ∀ other : K,
        other ≠ p.key →
          ReadableRepository.stored? c' other =
            ReadableRepository.stored? c other := by
  intro c'
  rcases publication_of_offer? hBottom hOffer with
    ⟨hTouched, hPut⟩
  have hCarried := carryOut_of_ok hBottom hTouched hOk
  rw [hPut] at hCarried
  exact
    ⟨ReadableRepository.stored?_of_put hCarried,
      fun other hNe =>
        ReadableRepository.stored?_of_put_of_ne
          hCarried hNe⟩

end Entry

end OverlayCache
