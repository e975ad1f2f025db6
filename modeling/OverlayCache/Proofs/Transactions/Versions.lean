import OverlayCache.Cache
import OverlayCache.Proofs.Transactions.Sights

/-
  Versions under transactions that do not overlap.

  A commit without a version stores what its entry knows: the
  version that the container had when the entry was opened or
  after its last commit.  An entry in its first transaction is
  up to date, since no other transaction can have ended since
  it was opened.  An entry that is used again may have been
  overtaken by a commit of another entry, and then it takes
  the container back to an older version.

  Key definitions include:
    * `Request`
    * `Scene`
    * `Scene.step`
    * `Scene.Serial`
    * `Scene.EachCommit`
    * `Scene.Settles`
    * `Scene.KeepsVersion`
    * `Scene.UpToDate`

  The main statements are:
    * `Scene.Tracks.commit_cases`
    * `Scene.Sound.step`
    * `Scene.Sound.settles`
    * `Scene.commits_keep_version_iff_up_to_date`
-/

------------------------------------------------------------
-- Requests
------------------------------------------------------------

namespace OverlayCache

/- One thing that a client asks of a cache. -/
inductive Request (K α δ : Type) where
| beginWrite (name : String) (key : K)
| call (name : String) (call : Entry.Call (Handle α) δ)
| commit (name : String) (version : Option Version)

end OverlayCache

------------------------------------------------------------
-- Scenes
------------------------------------------------------------

namespace OverlayCache

/- A cache, and an onlooker's sights of its kept entries. -/
structure Scene (K α δ ω : Type) [Ord K] where
  cache : Cache K α δ ω
  sights : String → Option (Sight K) := fun _ => none

namespace Sight

variable {K V : Type}

/-
  Follow a commit, given the reply to it and the version that
  the container has afterwards.
-/
def settle
    (s : Sight K)
    (reply : Entry.Reply V)
    (version : Option Version) : Sight K :=
  match s.isOpen, reply with
  | true, .done => { s.close with version := version }
  | _, _ => s

theorem settle_of_closed
    {s : Sight K}
    (hClosed : s.isOpen = false)
    (reply : Entry.Reply V)
    (version : Option Version) :
    s.settle reply version = s := by
  simp [settle, hClosed]

theorem settle_of_refused
    {reply : Entry.Reply V}
    (hRefused : reply ≠ .done)
    (s : Sight K)
    (version : Option Version) :
    s.settle reply version = s := by
  unfold settle
  split
  · exact absurd rfl hRefused
  · rfl

theorem settle_of_open
    {s : Sight K}
    (hOpen : s.isOpen = true)
    (version : Option Version) :
    s.settle (V := V) .done version =
      { s.close with version := version } := by
  simp [settle, hOpen]

end Sight

namespace Scene

variable {K α δ ω : Type} [Ord K]

/- Nothing has been seen yet. -/
def start (cache : Cache K α δ ω) : Scene K α δ ω where
  cache := cache

/- Take a sight down under a name. -/
def note
    (scene : Scene K α δ ω)
    (name : String)
    (s : Sight K) : Scene K α δ ω :=
  { scene with
    sights := fun n =>
      if n = name then some s else scene.sights n }

variable [Std.TransOrd K]
variable [Inhabited α] [Delta δ ω] [Aggregate α δ]

/- Carry out a request, and look at its entry. -/
def step
    (scene : Scene K α δ ω) :
    Request K α δ → Scene K α δ ω
| .beginWrite name key =>
    let t := scene.cache.beginWrite name key
    { scene with cache := t.cache }.note name
      { key := key
        version := scene.cache.container.version? key }
| .call name c =>
    let t := scene.cache.call name c
    match scene.sights name with
    | none => { scene with cache := t.cache }
    | some s =>
        { scene with cache := t.cache }.note name (s.call c)
| .commit name version =>
    let t := scene.cache.commitAt name version
    match scene.sights name with
    | none => { scene with cache := t.cache }
    | some s =>
        { scene with cache := t.cache }.note name
          (s.settle t.reply
            (t.cache.container.version? s.key))

/- Carry out requests in order. -/
def run
    (scene : Scene K α δ ω)
    (requests : List (Request K α δ)) : Scene K α δ ω :=
  requests.foldl step scene

/- No entry of the key is in a transaction. -/
def Idle (scene : Scene K α δ ω) (key : K) : Prop :=
  ∀ {name : String} {s : Sight K},
    scene.sights name = some s →
      s.key = key → s.isOpen = false

/-
  A request begins a transaction on the key only while there is
  none, and no commit on the key is refused.
-/
def Admits
    (scene : Scene K α δ ω)
    (key : K) : Request K α δ → Prop
| .beginWrite _ k => k = key → scene.Idle key
| .call name c =>
    ∀ s : Sight K,
      scene.sights name = some s →
        s.key = key →
          c.Opens → s.isOpen = false → scene.Idle key
| .commit name version =>
    ∀ s : Sight K,
      scene.sights name = some s →
        s.key = key →
          (scene.cache.commitAt name version).reply = .done

/- The transactions on the key come one after another. -/
def Serial
    (key : K) :
    Scene K α δ ω → List (Request K α δ) → Prop
| _, [] => True
| scene, r :: requests =>
    scene.Admits key r ∧
      Serial key (scene.step r) requests

/-
  Something holds of every commit on the key: of the scene that
  it finds, the sight of its entry and the version asked for.
-/
def EachCommit
    (key : K)
    (holds :
      Scene K α δ ω →
        String → Sight K → Option Version → Prop) :
    Scene K α δ ω → List (Request K α δ) → Prop
| _, [] => True
| scene, r :: requests =>
    (∀ (name : String)
        (asked : Option Version)
        (s : Sight K),
      r = .commit name asked →
        scene.sights name = some s →
          s.key = key →
            holds scene name s asked) ∧
      EachCommit key holds (scene.step r) requests

end Scene

end OverlayCache

------------------------------------------------------------
-- Tracked Entries
------------------------------------------------------------

namespace OverlayCache

namespace Scene

variable {K α δ ω : Type} [Ord K]

/-
  The kept entries are those that were sighted, and those of
  the key know the version that was seen last.
-/
structure Tracks
    (scene : Scene K α δ ω)
    (key : K) : Prop where
  sighted :
    ∀ {name : String} {s : Sight K},
      scene.sights name = some s →
        ∃ (e : Entry K (Handle α) δ ω)
            (known : Option Version),
          scene.cache.entry? name = some e ∧
            s.Of known e ∧
            (s.key = key → known = s.version)
  unsighted :
    ∀ {name : String},
      scene.sights name = none →
        scene.cache.entry? name = none

@[simp] theorem cache_note
    (scene : Scene K α δ ω)
    (name : String)
    (s : Sight K) :
    (scene.note name s).cache = scene.cache := rfl

theorem sights_note
    (scene : Scene K α δ ω)
    (name other : String)
    (s : Sight K) :
    (scene.note name s).sights other =
      if other = name then
        some s
      else
        scene.sights other := rfl

namespace Tracks

variable {scene : Scene K α δ ω} {key : K}

/- An entry that is kept anew is sighted anew. -/
theorem note
    (h : scene.Tracks key)
    {cache : Cache K α δ ω}
    {name : String}
    {e : Entry K (Handle α) δ ω}
    (hEntries :
      ∀ other : String,
        cache.entry? other =
          if other = name then
            some e
          else
            scene.cache.entry? other)
    {s : Sight K}
    {known : Option Version}
    (hOf : s.Of known e)
    (hKnown : s.key = key → known = s.version) :
    ({ scene with cache := cache }.note name s).Tracks
      key where
  sighted {other s'} hSight := by
    rw [cache_note, hEntries]
    rw [sights_note] at hSight
    by_cases hName : other = name
    · rw [if_pos hName] at hSight ⊢
      cases hSight
      exact ⟨e, known, rfl, hOf, hKnown⟩
    · rw [if_neg hName] at hSight ⊢
      exact h.sighted hSight
  unsighted {other} hSight := by
    rw [cache_note, hEntries]
    rw [sights_note] at hSight
    by_cases hName : other = name
    · rw [if_pos hName] at hSight
      cases hSight
    · rw [if_neg hName] at hSight ⊢
      exact h.unsighted hSight

variable [Std.TransOrd K]
variable [Inhabited α] [Delta δ ω] [Aggregate α δ]

/-
  A commit of a sighted entry does nothing outside a
  transaction.  In a transaction, it is refused or puts a
  value at the version that was asked for or else is known.
-/
theorem commit_cases
    (h : scene.Tracks key)
    {name : String}
    {s : Sight K}
    (hSight : scene.sights name = some s)
    (asked : Option Version) :
    let t := scene.cache.commitAt name asked
    ∃ (e : Entry K (Handle α) δ ω)
        (known : Option Version),
      (s.key = key → known = s.version) ∧
      (∀ other : String,
        t.cache.entry? other =
          if other = name then
            some e
          else
            scene.cache.entry? other) ∧
      (s.isOpen = false ∧
          t.reply = .done ∧
          t.cache.container = scene.cache.container ∧
          s.Of known e ∨
        s.isOpen = true ∧
          t.reply ≠ .done ∧
          t.cache.container = scene.cache.container ∧
          s.Of (asked.or known) e ∨
        s.isOpen = true ∧
          t.reply = .done ∧
          (∃ value : Handle α,
            scene.cache.container.put s.key value
                (asked.or known) =
              .ok t.cache.container) ∧
          s.close.Of (asked.or known) e) := by
  intro t
  rcases h.sighted hSight with ⟨e, known, hEntry, hOf, hKnown⟩
  simp only [t, Cache.commitAt, hEntry]
  refine ⟨_, known, hKnown,
    fun other => Cache.entry?_keep _ name other _, ?_⟩
  cases hOpen : s.isOpen with
  | false =>
      have hNothing :=
        hOf.commit_of_closed hOpen scene.cache.container
          scene.cache.store asked
      rcases hNothing with ⟨hResult, hContainer, hStill⟩
      left
      rw [hResult]
      exact ⟨rfl, rfl, hContainer, hStill⟩
  | true =>
      right
      rcases hOf.commit_of_open hOpen scene.cache.container
          scene.cache.store asked with
        ⟨refusal, hResult, hContainer, hStill⟩ |
        ⟨hResult, hPut, hClosed⟩
      · left
        rw [hResult]
        refine ⟨rfl, ?_, hContainer, hStill⟩
        rintro ⟨⟩
      · right
        rw [hResult]
        exact ⟨rfl, rfl, hPut, hClosed⟩

end Tracks

end Scene

end OverlayCache

------------------------------------------------------------
-- Sound Scenes
------------------------------------------------------------

namespace OverlayCache

namespace Scene

variable {K α δ ω : Type} [Ord K] [Std.TransOrd K]

/-
  At most one entry of the key is in a transaction.  The first
  transaction of an entry goes on until it ends, and what was
  seen when it began is still the version of the key.
-/
structure Orderly
    (scene : Scene K α δ ω)
    (key : K) : Prop where
  begun :
    ∀ {name : String} {s : Sight K},
      scene.sights name = some s →
        s.isReused = false → s.isOpen = true
  single :
    ∀ {name other : String} {s s' : Sight K},
      scene.sights name = some s →
        s.key = key → s.isOpen = true →
          other ≠ name →
            scene.sights other = some s' →
              s'.key = key → s'.isOpen = false
  first :
    ∀ {name : String} {s : Sight K},
      scene.sights name = some s →
        s.key = key → s.isReused = false →
          s.version = scene.cache.container.version? key

/- The key is in order, and its entries are tracked. -/
structure Sound
    (scene : Scene K α δ ω)
    (key : K) : Prop where
  tracks : scene.Tracks key
  orderly : scene.Orderly key

/- A sight of an entry that is, if open, the only open one. -/
theorem Orderly.note
    {scene : Scene K α δ ω}
    {key : K}
    (h : scene.Orderly key)
    {cache : Cache K α δ ω}
    {name : String}
    {s : Sight K}
    (hBegun : s.isReused = false → s.isOpen = true)
    (hSingle :
      s.key = key → s.isOpen = true →
        ∀ {other : String} {s' : Sight K},
          other ≠ name →
            scene.sights other = some s' →
              s'.key = key → s'.isOpen = false)
    (hFirst :
      s.key = key → s.isReused = false →
        s.version = cache.container.version? key)
    (hOthers :
      ∀ {other : String} {s' : Sight K},
        other ≠ name →
          scene.sights other = some s' →
            s'.key = key → s'.isReused = false →
              s'.version = cache.container.version? key) :
    ({ scene with cache := cache }.note name s).Orderly
      key where
  begun {other s'} hSight := by
    rw [sights_note] at hSight
    by_cases hName : other = name
    · rw [if_pos hName] at hSight
      cases hSight
      exact hBegun
    · rw [if_neg hName] at hSight
      exact h.begun hSight
  single {one other s₁ s₂} hOne hKey hOpen hNe hOther hKey' := by
    rw [sights_note] at hOne hOther
    by_cases hName : one = name
    · subst hName
      rw [if_pos rfl] at hOne
      rw [if_neg hNe] at hOther
      cases hOne
      exact hSingle hKey hOpen hNe hOther hKey'
    · rw [if_neg hName] at hOne
      by_cases hName' : other = name
      · rw [if_pos hName'] at hOther
        cases hOther
        cases hUp : s.isOpen with
        | false => rfl
        | true =>
            have hShut := hSingle hKey' hUp hName hOne hKey
            rw [hShut] at hOpen
            cases hOpen
      · rw [if_neg hName'] at hOther
        exact h.single hOne hKey hOpen hNe hOther hKey'
  first {other s'} hSight := by
    rw [sights_note] at hSight
    by_cases hName : other = name
    · rw [if_pos hName] at hSight
      cases hSight
      exact hFirst
    · rw [if_neg hName] at hSight
      exact hOthers hName hSight

namespace Sound

variable {scene : Scene K α δ ω} {key : K}

/- Without entries there is nothing to be seen. -/
theorem of_empty
    {cache : Cache K α δ ω}
    (hNew : ∀ name : String, cache.entry? name = none)
    (key : K) :
    (start cache).Sound key where
  tracks :=
    { sighted := by simp [start]
      unsighted := fun {name} _ => hNew name }
  orderly :=
    { begun := by simp [start]
      single := by simp [start]
      first := by simp [start] }

/- An entry may change where the onlooker sees no difference. -/
theorem again
    (h : scene.Sound key)
    {name : String}
    {s : Sight K}
    (hSight : scene.sights name = some s)
    {cache : Cache K α δ ω}
    (hContainer : cache.container = scene.cache.container)
    {e : Entry K (Handle α) δ ω}
    (hEntries :
      ∀ other : String,
        cache.entry? other =
          if other = name then
            some e
          else
            scene.cache.entry? other)
    {known : Option Version}
    (hOf : s.Of known e)
    (hKnown : s.key = key → known = s.version) :
    ({ scene with cache := cache }.note name s).Sound
      key where
  tracks := h.tracks.note hEntries hOf hKnown
  orderly := by
    refine h.orderly.note (h.orderly.begun hSight) ?_ ?_ ?_
    · intro hKey hOpen other s' hNe hSight' hKey'
      exact
        h.orderly.single hSight hKey hOpen hNe hSight' hKey'
    · rw [hContainer]
      exact h.orderly.first hSight
    · intro other s' _ hSight'
      rw [hContainer]
      exact h.orderly.first hSight'

variable [Inhabited α] [Delta δ ω] [Aggregate α δ]

theorem beginWrite
    (h : scene.Sound key)
    (name : String)
    {k : K}
    (hIdle : k = key → scene.Idle key) :
    (scene.step (.beginWrite name k)).Sound key where
  tracks := by
    apply h.tracks.note
    · exact fun other => Cache.entry?_keep _ name other _
    · exact
        Sight.of_beginWrite scene.cache.opener
          scene.cache.container scene.cache.store k
    · exact fun _ => rfl
  orderly := by
    refine h.orderly.note (fun _ => rfl) ?_ ?_ ?_
    · intro hKey _ other s' _ hSight hKey'
      exact hIdle hKey hSight hKey'
    · rintro rfl _
      rfl
    · intro other s' _ hSight hKey hNew
      exact h.orderly.first hSight hKey hNew

theorem call
    (h : scene.Sound key)
    {name : String}
    {c : Entry.Call (Handle α) δ}
    (hAdmits : scene.Admits key (.call name c)) :
    (scene.step (.call name c)).Sound key := by
  cases hSight : scene.sights name with
  | none =>
      have hEntry := h.tracks.unsighted hSight
      have hSame :
          scene.step (.call name c) = scene := by
        simp only [step, Cache.call, hSight, hEntry]
      rw [hSame]
      exact h
  | some s =>
      rcases h.tracks.sighted hSight with
        ⟨e, known, hEntry, hOf, hKnown⟩
      have hTurn :
          scene.cache.call name c =
            { cache := scene.cache.keep name (e.call c).entry
              events := (e.call c).events
              reply := (e.call c).reply } := by
        simp only [Cache.call, hEntry]
      simp only [step, hSight, hTurn]
      constructor
      · apply h.tracks.note
          (fun other => Cache.entry?_keep _ name other _)
          (hOf.call c)
        simpa using hKnown
      · refine h.orderly.note ?_ ?_ ?_ ?_
        · intro hNew
          rcases Sight.first_of_call hNew with ⟨hFirst, hGoesOn⟩
          exact hGoesOn (h.orderly.begun hSight hFirst)
        · rw [Sight.key_call]
          intro hKey hOpen other s' hNe hSight' hKey'
          cases hWas : s.isOpen with
          | true =>
              exact
                h.orderly.single hSight hKey hWas hNe
                  hSight' hKey'
          | false =>
              have hOpens :=
                (Sight.opens_or_isOpen_of_call
                  hOpen).resolve_right (by simp [hWas])
              exact
                hAdmits s hSight hKey hOpens hWas
                  hSight' hKey'
        · rw [Sight.key_call, Sight.version_call]
          intro hKey hNew
          exact
            h.orderly.first hSight hKey
              (Sight.first_of_call hNew).1
        · intro other s' _ hSight' hKey hNew
          exact h.orderly.first hSight' hKey hNew

/- An accepted commit ends the one open transaction. -/
theorem commit
    [Std.LawfulEqOrd K] [DecidableEq K]
    (h : scene.Sound key)
    {name : String}
    {asked : Option Version}
    (hAdmits : scene.Admits key (.commit name asked)) :
    (scene.step (.commit name asked)).Sound key := by
  cases hSight : scene.sights name with
  | none =>
      have hEntry := h.tracks.unsighted hSight
      have hSame :
          scene.step (.commit name asked) = scene := by
        simp only [step, Cache.commitAt, hSight, hEntry]
      rw [hSame]
      exact h
  | some s =>
      have hAccepted := hAdmits s hSight
      rcases h.tracks.commit_cases hSight asked with
        ⟨e, known, hKnown, hEntries,
          ⟨hClosed, hReply, hContainer, hOf⟩ |
          ⟨hOpen, hReply, hContainer, hOf⟩ |
          ⟨hOpen, hReply, ⟨value, hPut⟩, hOf⟩⟩
      · simp only [step, hSight,
          Sight.settle_of_closed hClosed]
        exact h.again hSight hContainer hEntries hOf hKnown
      · simp only [step, hSight,
          Sight.settle_of_refused hReply]
        exact
          h.again hSight hContainer hEntries hOf
            (fun hKey => absurd (hAccepted hKey) hReply)
      · simp only [step, hSight, hReply,
          Sight.settle_of_open hOpen]
        have hVersion := Container.version?_of_put hPut
        constructor
        · apply h.tracks.note hEntries (hOf.withVersion _)
          intro _
          rw [hVersion, if_pos rfl]
        · refine h.orderly.note ?_ ?_ ?_ ?_
          · rintro ⟨⟩
          · rintro _ ⟨⟩
          · rintro _ ⟨⟩
          · -- The others of the key are closed, so used before.
            intro other s' hNe hSight' hKey' hNew
            have hBegun := h.orderly.begun hSight' hNew
            by_cases hKey : s.key = key
            · have hShut :=
                h.orderly.single hSight hKey hOpen hNe
                  hSight' hKey'
              rw [hShut] at hBegun
              cases hBegun
            · rw [hVersion, if_neg (fun hEq => hKey hEq.symm)]
              exact h.orderly.first hSight' hKey' hNew

/- Every admitted request keeps a scene sound. -/
theorem step
    [Std.LawfulEqOrd K] [DecidableEq K]
    (h : scene.Sound key)
    {r : Request K α δ}
    (hAdmits : scene.Admits key r) :
    (scene.step r).Sound key := by
  cases r with
  | beginWrite name k => exact h.beginWrite name hAdmits
  | call name c => exact h.call hAdmits
  | commit name asked => exact h.commit hAdmits

end Sound

end Scene

end OverlayCache

------------------------------------------------------------
-- Versions That Commits Leave
------------------------------------------------------------

namespace OverlayCache

namespace Scene

variable {K α δ ω : Type} [Ord K] [Std.TransOrd K]
variable [Inhabited α] [Delta δ ω] [Aggregate α δ]

/-
  What a commit leaves.  In a transaction it stores the version
  that is asked for, or else the one that was seen last, and
  otherwise it changes nothing.  In the first transaction of an
  entry the version seen last is that of the key.
-/
structure Settles
    (scene : Scene K α δ ω)
    (name : String)
    (s : Sight K)
    (asked : Option Version) : Prop where
  stored :
    s.isOpen = true →
      (scene.step (.commit name asked)).cache.container.version?
          s.key =
        asked.or s.version
  unchanged :
    s.isOpen = false →
      (scene.step (.commit name asked)).cache.container =
        scene.cache.container
  first :
    s.isReused = false →
      s.isOpen = true ∧
        s.version = scene.cache.container.version? s.key

/-
  A commit without a version keeps the version of a key that is
  present.
-/
def KeepsVersion
    (scene : Scene K α δ ω)
    (name : String)
    (s : Sight K)
    (asked : Option Version) : Prop :=
  asked = none →
    scene.cache.container.contains s.key = true →
      (scene.step (.commit name asked)).cache.container.version?
          s.key =
        scene.cache.container.version? s.key

/-
  Nothing has changed the version of the key since an entry that
  is used again was opened or last committed.
-/
def UpToDate
    (scene : Scene K α δ ω)
    (_ : String)
    (s : Sight K)
    (asked : Option Version) : Prop :=
  asked = none →
    scene.cache.container.contains s.key = true →
      s.isOpen = true →
        s.isReused = true →
          s.version = scene.cache.container.version? s.key

/- Once commits settle, it is for these two to agree. -/
theorem Settles.keepsVersion_iff
    {scene : Scene K α δ ω}
    {name : String}
    {s : Sight K}
    {asked : Option Version}
    (h : scene.Settles name s asked) :
    scene.KeepsVersion name s asked ↔
      scene.UpToDate name s asked := by
  constructor
  · intro hKeeps hNone hPresent hOpen _
    have hStored := h.stored hOpen
    rw [hKeeps hNone hPresent, hNone] at hStored
    exact hStored.symm
  · intro hUpToDate hNone hPresent
    cases hOpen : s.isOpen with
    | false => rw [h.unchanged hOpen]
    | true =>
        rw [h.stored hOpen, hNone]
        cases hReused : s.isReused with
        | false => exact (h.first hReused).2
        | true =>
            exact hUpToDate hNone hPresent hOpen hReused

/- Every accepted commit of a sound scene settles. -/
theorem Sound.settles
    [Std.LawfulEqOrd K] [DecidableEq K]
    {scene : Scene K α δ ω}
    {key : K}
    (h : scene.Sound key)
    {name : String}
    {asked : Option Version}
    (hAdmits : scene.Admits key (.commit name asked))
    {s : Sight K}
    (hSight : scene.sights name = some s)
    (hKey : s.key = key) :
    scene.Settles name s asked := by
  have hStep :
      (scene.step (.commit name asked)).cache =
        (scene.cache.commitAt name asked).cache := by
    simp only [Scene.step, hSight, cache_note]
  have hFirst :
      s.isReused = false →
        s.isOpen = true ∧
          s.version =
            scene.cache.container.version? s.key := by
    intro hNew
    refine ⟨h.orderly.begun hSight hNew, ?_⟩
    rw [hKey]
    exact h.orderly.first hSight hKey hNew
  have hAccepted := hAdmits s hSight hKey
  rcases h.tracks.commit_cases hSight asked with
    ⟨e, known, hKnown, _,
      ⟨hClosed, _, hContainer, _⟩ |
      ⟨_, hReply, _, _⟩ |
      ⟨hOpen, _, ⟨value, hPut⟩, _⟩⟩
  · refine ⟨?_, ?_, hFirst⟩
    · intro hOpen
      rw [hClosed] at hOpen
      cases hOpen
    · intro _
      rw [hStep, hContainer]
  · exact absurd hAccepted hReply
  · refine ⟨?_, ?_, hFirst⟩
    · intro _
      rw [hStep, Container.version?_of_put hPut, if_pos rfl,
        hKnown hKey]
    · intro hClosed
      rw [hOpen] at hClosed
      cases hClosed

/- What agrees on every commit holds of every commit alike. -/
theorem EachCommit.congr
    {key : K}
    {scene : Scene K α δ ω}
    {requests : List (Request K α δ)}
    {given holds holds' :
      Scene K α δ ω →
        String → Sight K → Option Version → Prop}
    (h : EachCommit key given scene requests)
    (hAgree :
      ∀ {scene : Scene K α δ ω}
        {name : String}
        {s : Sight K}
        {asked : Option Version},
        given scene name s asked →
          (holds scene name s asked ↔
            holds' scene name s asked)) :
    EachCommit key holds scene requests ↔
      EachCommit key holds' scene requests := by
  induction requests generalizing scene with
  | nil => exact Iff.rfl
  | cons r requests ih =>
      have hFirst := h.1
      refine and_congr ⟨?_, ?_⟩ (ih h.2)
      · intro hHolds name asked s hCommit hSight hKey
        exact
          (hAgree (hFirst name asked s hCommit hSight hKey)).mp
            (hHolds name asked s hCommit hSight hKey)
      · intro hHolds name asked s hCommit hSight hKey
        exact
          (hAgree (hFirst name asked s hCommit hSight hKey)).mpr
            (hHolds name asked s hCommit hSight hKey)

variable [Std.LawfulEqOrd K] [DecidableEq K]

/- All commits of a serial run settle. -/
theorem Sound.settles_run
    {scene : Scene K α δ ω}
    {key : K}
    (h : scene.Sound key)
    {requests : List (Request K α δ)}
    (hSerial : scene.Serial key requests) :
    EachCommit key Settles scene requests := by
  induction requests generalizing scene with
  | nil => trivial
  | cons r requests ih =>
      refine ⟨?_, ih (h.step hSerial.1) hSerial.2⟩
      rintro name asked s rfl hSight hKey
      exact h.settles hSerial.1 hSight hKey

/-
  Transactions on a key that do not overlap, none of whose
  commits is refused, on entries that may be used again.  A
  commit in a transaction leaves the version that it asks for,
  or else the one that the container had when its entry was
  opened or last committed.  So all commits without a version
  keep that of the key exactly when no entry is used again
  after another one has changed the version.
-/
theorem commits_keep_version_iff_up_to_date
    {cache : Cache K α δ ω}
    (hNew : ∀ name : String, cache.entry? name = none)
    {key : K}
    {requests : List (Request K α δ)}
    (hSerial : (start cache).Serial key requests) :
    EachCommit key Settles (start cache) requests ∧
      (EachCommit key KeepsVersion (start cache) requests ↔
        EachCommit key UpToDate (start cache) requests) := by
  have hSettles :=
    (Sound.of_empty hNew key).settles_run hSerial
  exact ⟨hSettles, hSettles.congr Settles.keepsVersion_iff⟩

/- A key is stored at a version, and no entry is open. -/
def stocked :
    Cache String (TrackedMap String Int)
      (MapDelta String Int) (TrackedMap String Int) where
  container :=
    { entries :=
        (∅ : Std.ExtTreeMap String
          (Stored (Handle (TrackedMap String Int)))).insert
            "k" ⟨⟨0⟩, some ⟨1⟩⟩ }
  store := (Heap.empty.alloc TrackedMap.empty).2

theorem entry?_stocked (name : String) :
    stocked.entry? name = none := by
  simp [stocked, Cache.entry?]

/- Only the names that were used need to be looked at. -/
theorem idle_of_names
    {scene :
      Scene String (TrackedMap String Int)
        (MapDelta String Int) (TrackedMap String Int)}
    {key : String}
    (names : List String)
    (hNone :
      ∀ name : String,
        name ∉ names → scene.sights name = none)
    (hClosed :
      ∀ name ∈ names,
        ∀ s : Sight String,
          scene.sights name = some s →
            s.key = key → s.isOpen = false) :
    scene.Idle key := by
  intro name s hSight
  by_cases hMem : name ∈ names
  · exact hClosed name hMem s hSight
  · rw [hNone name hMem] at hSight
    cases hSight

/-
  An entry rolls back, commits at a version and commits without
  one, and then another entry commits without one.
-/
def renewed :
    List
      (Request String (TrackedMap String Int)
        (MapDelta String Int)) :=
  [.beginWrite "e1" "k",
    .call "e1" .rollback,
    .call "e1" (.append ⟨[.put "a" 1]⟩),
    .commit "e1" (some ⟨4⟩),
    .call "e1" (.append ⟨[.put "b" 2]⟩),
    .commit "e1" none,
    .beginWrite "e2" "k",
    .commit "e2" none]

theorem commits_keep_version_renewed :
    (start stocked).Serial "k" renewed ∧
      EachCommit "k" KeepsVersion (start stocked) renewed ∧
      ((start stocked).run
          renewed).cache.container.version? "k" =
        some ⟨4⟩ := by
  have hSerial : (start stocked).Serial "k" renewed := by
    have hIdle :
        ∀ used ∈ [2, 4, 6],
          ((start stocked).run (renewed.take used)).Idle
            "k" := by
      intro used hUsed
      apply idle_of_names ["e1"]
      · intro name hName
        rw [List.mem_singleton] at hName
        simp only [List.mem_cons, List.not_mem_nil,
          or_false] at hUsed
        rcases hUsed with rfl | rfl | rfl <;>
          simp [run, renewed, step, note, hName, start]
      · simp only [List.mem_singleton]
        rintro name rfl s hSight _
        simp only [List.mem_cons, List.not_mem_nil,
          or_false] at hUsed
        rcases hUsed with rfl | rfl | rfl <;>
          cases hSight <;> rfl
    refine ⟨?_, ?_, ?_, ?_, ?_, ?_, ?_, ?_, trivial⟩
    · rintro _ name s ⟨⟩
    · rintro s ⟨⟩ _ ⟨⟩
    · exact fun s _ _ _ _ => hIdle 2 (by decide)
    · exact fun s _ _ => rfl
    · exact fun s _ _ _ _ => hIdle 4 (by decide)
    · exact fun s _ _ => rfl
    · exact fun _ => hIdle 6 (by decide)
    · exact fun s _ _ => rfl
  have hUpToDate :
      EachCommit "k" UpToDate (start stocked) renewed := by
    refine ⟨?_, ?_, ?_, ?_, ?_, ?_, ?_, ?_, trivial⟩
    · rintro name asked s ⟨⟩
    · rintro name asked s ⟨⟩
    · rintro name asked s ⟨⟩
    · rintro name asked s ⟨⟩ ⟨⟩ _ ⟨⟩
    · rintro name asked s ⟨⟩
    · rintro name asked s ⟨⟩ ⟨⟩ _ _ _ _ _
      rfl
    · rintro name asked s ⟨⟩
    · rintro name asked s ⟨⟩ ⟨⟩ _ _ _ _ _
      rfl
  have hKept :=
    (commits_keep_version_iff_up_to_date
      entry?_stocked hSerial).2.mpr hUpToDate
  exact ⟨hSerial, hKept, rfl⟩

/-
  An entry rolls back and is used again after another one has
  committed at a version.  Its commit without a version takes
  the key back to the version that it was opened at.
-/
def overtaken :
    List
      (Request String (TrackedMap String Int)
        (MapDelta String Int)) :=
  [.beginWrite "e1" "k",
    .call "e1" .rollback,
    .beginWrite "e2" "k",
    .call "e2" (.append ⟨[.put "a" 1]⟩),
    .commit "e2" (some ⟨5⟩),
    .call "e1" (.append ⟨[.put "b" 2]⟩),
    .commit "e1" none]

theorem version_of_overtaken :
    let found := (start stocked).run (overtaken.take 6)
    let left := (start stocked).run overtaken
    (start stocked).Serial "k" overtaken ∧
      ¬ EachCommit "k" KeepsVersion (start stocked)
        overtaken ∧
      found.cache.container.contains "k" = true ∧
      found.cache.container.version? "k" = some ⟨5⟩ ∧
      left.cache.container.version? "k" = some ⟨1⟩ := by
  intro found left
  have hFirst :
      ((start stocked).run (overtaken.take 2)).Idle "k" := by
    apply idle_of_names ["e1"]
    · intro name hName
      rw [List.mem_singleton] at hName
      simp [run, overtaken, step, note, hName, start]
    · simp only [List.mem_singleton]
      rintro name rfl s ⟨⟩ _
      rfl
  have hSecond :
      ((start stocked).run (overtaken.take 5)).Idle "k" := by
    apply idle_of_names ["e1", "e2"]
    · intro name hName
      simp only [List.mem_cons, List.not_mem_nil, or_false,
        not_or] at hName
      simp [run, overtaken, step, note, hName, start]
    · simp only [List.mem_cons, List.not_mem_nil, or_false]
      rintro name (rfl | rfl) s ⟨⟩ _
      · rfl
      · rfl
  have hLoses :
      left.cache.container.version? "k" ≠
        found.cache.container.version? "k" := by
    decide +kernel
  refine ⟨⟨?_, ?_, ?_, ?_, ?_, ?_, ?_, trivial⟩,
    ?_, rfl, rfl, rfl⟩
  · rintro _ name s ⟨⟩
  · rintro s ⟨⟩ _ ⟨⟩
  · exact fun _ => hFirst
  · rintro s ⟨⟩ _ _ ⟨⟩
  · exact fun s _ _ => rfl
  · exact fun s _ _ _ _ => hSecond
  · exact fun s _ _ => rfl
  · rintro ⟨_, _, _, _, _, _, hLast, _⟩
    exact hLoses (hLast "e1" none _ rfl rfl rfl rfl rfl)

end Scene

end OverlayCache
