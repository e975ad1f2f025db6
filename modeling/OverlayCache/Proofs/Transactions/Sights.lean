import OverlayCache.Opener
import OverlayCache.Proofs.Commit.Version
import OverlayCache.Proofs.Ledger.Serial

/-
  What an opened entry knows of the version of its key.

  The plain entry below an opened layer takes the version that
  the container has when the key is opened.  Nothing that is
  called on the layer reaches this version, and a commit that
  names another one is all that replaces it.

  A sight is what an onlooker can tell of such an entry: its
  key, the version that the container had for this key at the
  last occasion, and whether the entry is in a transaction.

  Key definitions include:
    * `Plain.Offers`
    * `Sight`
    * `Sight.Of`

  The main statements are:
    * `Sight.Of.call`
    * `Sight.Of.commit_of_closed`
    * `Sight.Of.commit_of_open`
    * `Sight.of_beginWrite`
-/

------------------------------------------------------------
-- Plain Entries With Something To Publish
------------------------------------------------------------

namespace OverlayCache

namespace Plain

variable {K V δ : Type}

/-
  A plain entry that publishes a value, and that publishes one
  after a rollback too.
-/
structure Offers (p : Plain K V) : Prop where
  publishes : ∃ value : V, p.publication = .put value
  untouched : p.flags.changed = false → p.captured = none
  restorable :
    p.flags.changed = true →
      ∃ before : Captured V,
        p.captured = some before ∧
          before.flags.changed = false ∧
          ∃ value : V,
            publication
                { p with
                  value := before.value
                  flags := before.flags } =
              .put value

/- Only a key that is present and valid is published. -/
theorem of_publication_put
    {p : Plain K V}
    {value : V}
    (hPut : p.publication = .put value) :
    p.flags.removed = false ∧
      p.flags.valid = true ∧
      p.value = some value := by
  unfold publication at hPut
  cases hRemoved : p.flags.removed with
  | true =>
      rw [hRemoved] at hPut
      cases hEvicted : p.flags.evicted <;>
        simp [hEvicted] at hPut
  | false =>
      cases hValid : p.flags.valid with
      | false => simp [hRemoved, hValid] at hPut
      | true =>
          cases hValue : p.value with
          | none => simp [hRemoved, hValid, hValue] at hPut
          | some v =>
              simp [hRemoved, hValid, hValue] at hPut
              exact ⟨rfl, rfl, by rw [hPut]⟩

/- An entry at rest that has a usable value offers it. -/
theorem offers_of_unchanged
    {p : Plain K V}
    (hPublishes : ∃ value : V, p.publication = .put value)
    (hUnchanged : p.flags.changed = false)
    (hUncaptured : p.captured = none) :
    p.Offers where
  publishes := hPublishes
  untouched _ := hUncaptured
  restorable hChanged := by simp [hUnchanged] at hChanged

namespace Offers

variable {p : Plain K V}

/- A preparation captures what can be published again. -/
theorem capture (h : p.Offers) : p.capture.Offers where
  publishes := by
    rw [publication_capture]
    exact h.publishes
  untouched hUnchanged := by simp at hUnchanged
  restorable _ := by
    by_cases hChanged : p.flags.changed = true
    · have hSame : p.capture = p := by
        simp [Plain.capture, hChanged]
      rw [hSame]
      exact h.restorable hChanged
    · refine ⟨⟨p.value, p.flags⟩, ?_, by simpa using hChanged,
        h.publishes⟩
      rw [captured_capture, if_neg hChanged]

/- A rollback ends the transaction and offers a value. -/
theorem rollback (h : p.Offers) :
    (p.rollback (δ := δ)).1.Offers ∧
      (p.rollback (δ := δ)).1.flags.changed = false := by
  unfold Plain.rollback
  cases hChanged : p.flags.changed with
  | false =>
      rw [h.untouched hChanged]
      exact ⟨h, hChanged⟩
  | true =>
      rcases h.restorable hChanged with
        ⟨before, hCaptured, hUnchanged, hPublishes⟩
      rw [hCaptured]
      exact
        ⟨offers_of_unchanged hPublishes hUnchanged rfl,
          hUnchanged⟩

/- So does a commit that took effect. -/
theorem finish
    (h : p.Offers)
    (version : Option Version) :
    (Plain.finish { p with version := version }).Offers := by
  rcases h.publishes with ⟨value, hPut⟩
  rcases of_publication_put hPut with ⟨hPresent, _, hValue⟩
  apply offers_of_unchanged _ rfl rfl
  refine ⟨value, ?_⟩
  simp [publication, Plain.finish, hPresent, hValue,
    Flags.untouched]

theorem withVersion
    (h : p.Offers)
    (version : Option Version) :
    ({ p with version := version } : Plain K V).Offers :=
  ⟨h.publishes, h.untouched, h.restorable⟩

end Offers

end Plain

end OverlayCache

------------------------------------------------------------
-- Sights
------------------------------------------------------------

namespace OverlayCache

/-
  What an onlooker can tell of an entry.  The version is that
  of the container when the entry was opened or, later on,
  after its last commit.
-/
structure Sight (K : Type) where
  key : K
  version : Option Version
  isOpen : Bool := true
  isReused : Bool := false
deriving DecidableEq

namespace Sight

variable {K V δ ω : Type}

/- The end of a transaction. -/
def close (s : Sight K) : Sight K :=
  { s with isOpen := false, isReused := true }

/- Follow a call. -/
def call (s : Sight K) : Entry.Call V δ → Sight K
| .append _ => { s with isOpen := true }
| .prepare => { s with isOpen := true }
| .rollback => s.close
| _ => s

@[simp] theorem key_call
    (s : Sight K)
    (c : Entry.Call V δ) :
    (s.call c).key = s.key := by
  cases c <;> rfl

@[simp] theorem version_call
    (s : Sight K)
    (c : Entry.Call V δ) :
    (s.call c).version = s.version := by
  cases c <;> rfl

/- A transaction that goes on was begun by a call, or before. -/
theorem opens_or_isOpen_of_call
    {s : Sight K}
    {c : Entry.Call V δ}
    (hOpen : (s.call c).isOpen = true) :
    c.Opens ∨ s.isOpen = true := by
  cases c with
  | append d => exact .inl trivial
  | prepare => exact .inl trivial
  | rollback => cases hOpen
  | _ => exact .inr hOpen

/- The first transaction goes on unless a call ends it. -/
theorem first_of_call
    {s : Sight K}
    {c : Entry.Call V δ}
    (hFirst : (s.call c).isReused = false) :
    s.isReused = false ∧
      (s.isOpen = true → (s.call c).isOpen = true) := by
  cases c with
  | append d => exact ⟨hFirst, fun _ => rfl⟩
  | prepare => exact ⟨hFirst, fun _ => rfl⟩
  | rollback => cases hFirst
  | _ => exact ⟨hFirst, id⟩

/-
  A sight of an opened entry, whose plain part has a value to
  publish and knows a version.
-/
inductive Of
    (s : Sight K)
    (known : Option Version) : Entry K V δ ω → Prop
| layered
    {l : Layer K V δ ω}
    {p : Plain K V}
    (hKey : p.key = s.key)
    (hVersion : p.version = known)
    (hOffers : p.Offers)
    (hOpen :
      s.isOpen = (l.flags.changed || p.flags.changed)) :
    Of s known (.stacked l (.plain p))

/- The entry does not depend on what the onlooker saw. -/
theorem Of.withVersion
    {s : Sight K}
    {known : Option Version}
    {e : Entry K V δ ω}
    (h : s.Of known e)
    (version : Option Version) :
    ({ s with version := version } : Sight K).Of known e := by
  cases h with
  | layered hKey hVersion hOffers hOpen =>
      exact .layered hKey hVersion hOffers hOpen

end Sight

end OverlayCache

------------------------------------------------------------
-- Calls
------------------------------------------------------------

namespace OverlayCache

variable {K V δ ω σ : Type} [Delta δ ω]

/- A layer that is discarded is not in a transaction. -/
theorem Layer.changed_discard
    (l : Layer K V δ ω)
    (value : Option V) :
    (l.discard value).1.flags.changed = false := by
  unfold discard
  cases hChanged : l.flags.changed with
  | true => rfl
  | false => exact hChanged

/- Nor is a layer whose deltas took effect. -/
theorem Layer.changed_replay
    [Holding V σ δ]
    (l : Layer K V δ ω)
    (store : σ) :
    (l.replay store).layer.flags.changed = false := by
  unfold replay
  cases l.value with
  | none => rfl
  | some value => rfl

namespace Sight.Of

variable {s : Sight K}
variable {known : Option Version}
variable {e : Entry K V δ ω}

/- No call reaches the version that the entry knows. -/
theorem call
    (h : s.Of known e)
    (c : Entry.Call V δ) :
    (s.call c).Of known (e.call c).entry := by
  cases h with
  | @layered l p hKey hVersion hOffers hOpen =>
      rcases hOffers.publishes with ⟨value, hPut⟩
      rcases Plain.of_publication_put hPut with
        ⟨hPresent, hValid, _⟩
      cases c with
      | append d =>
          have hRemoved :
              (Entry.stacked l (.plain p)).is .removed =
                false := hPresent
          have hUsable :
              (Entry.stacked l (.plain p)).is .valid =
                true := hValid
          simp only [Entry.call, Entry.append, Entry.top?,
            hRemoved, hUsable]
          simp only [Bool.not_true, Bool.or_false,
            Bool.and_false, Bool.false_eq_true, if_false]
          exact
            .layered hKey hVersion hOffers
              (by simp [Sight.call])
      | setValue value =>
          exact .layered hKey hVersion hOffers hOpen
      | mark m on =>
          refine .layered hKey hVersion hOffers ?_
          refine hOpen.trans ?_
          cases m <;> rfl
      | setLock on =>
          exact .layered hKey hVersion hOffers hOpen
      | setVersion version =>
          exact .layered hKey hVersion hOffers hOpen
      | configure config =>
          exact .layered hKey hVersion hOffers hOpen
      | prepare =>
          refine .layered ?_ ?_ hOffers.capture ?_
          · rw [Plain.key_capture, hKey]
            rfl
          · rw [Plain.version_capture, hVersion]
          · simp [Sight.call]
      | rollback =>
          have hKey' : (p.rollback (δ := δ)).1.key = s.key :=
            p.key_rollback.trans hKey
          have hKnown :
              (p.rollback (δ := δ)).1.version = known :=
            (Entry.version_rollback p).trans hVersion
          rcases hOffers.rollback (δ := δ) with
            ⟨hRestored, hUnchanged⟩
          refine .layered hKey' hKnown hRestored ?_
          change
            false =
              ((l.discard _).1.flags.changed ||
                (p.rollback (δ := δ)).1.flags.changed)
          rw [hUnchanged, Layer.changed_discard]
          rfl
      | undelete on =>
          have hNothing :=
            Entry.undelete_of_present
              (e := Entry.stacked l (.plain p))
              hPresent on
          simp only [Entry.call, hNothing]
          exact .layered hKey hVersion hOffers hOpen

end Sight.Of

end OverlayCache

------------------------------------------------------------
-- Commits
------------------------------------------------------------

namespace OverlayCache

namespace Sight.Of

variable {γ K V δ ω σ : Type}
variable [Repository γ K V]
variable [Delta δ ω] [Holding V σ δ]
variable {s : Sight K}
variable {known : Option Version}
variable {e : Entry K V δ ω}

/- Outside a transaction there is nothing to commit. -/
theorem commit_of_closed
    (h : s.Of known e)
    (hClosed : s.isOpen = false)
    (c : γ)
    (store : σ)
    (asked : Option Version) :
    let o := e.commit c store asked
    o.result = .ok () ∧
      o.container = c ∧
      s.Of known o.entry := by
  cases h with
  | @layered l p hKey hVersion hOffers hOpen =>
      rw [hClosed] at hOpen
      have hLayer : l.flags.changed = false := by
        cases hUp : l.flags.changed
        · rfl
        · simp [hUp] at hOpen
      have hPlain : p.flags.changed = false := by
        simpa [hLayer] using hOpen.symm
      simp only [Entry.commit, Entry.ready_stacked_plain,
        hLayer, Bool.false_eq_true, if_false, Entry.settle,
        Plain.commit_of_unchanged hPlain]
      refine ⟨trivial, trivial,
        .layered hKey hVersion hOffers ?_⟩
      rw [hClosed, hPlain, Layer.changed_replay]
      rfl

/-
  In a transaction, the entry puts a value at the version that
  is asked for or else at the one that it knows.  It knows
  that version from then on, whatever the repository answers.
-/
theorem commit_of_open
    (h : s.Of known e)
    (hOpen : s.isOpen = true)
    (c : γ)
    (store : σ)
    (asked : Option Version) :
    let o := e.commit c store asked
    let v := asked.or known
    (∃ refusal : Refusal,
      o.result = .error refusal ∧
        o.container = c ∧
        s.Of v o.entry) ∨
      (o.result = .ok () ∧
        (∃ value : V,
          Repository.put c s.key value v =
            .ok o.container) ∧
        s.close.Of v o.entry) := by
  intro o v
  cases h with
  | @layered l p hKey hVersion hOffers hEither =>
      obtain ⟨q, hReadied⟩ :
          ∃ q : Plain K V,
            (if l.flags.changed then p.capture else p) = q :=
        ⟨_, rfl⟩
      have hQ :
          q.key = s.key ∧
            q.version = known ∧
            q.flags.changed = true ∧
            q.Offers := by
        rw [hOpen] at hEither
        rw [← hReadied]
        cases hLayer : l.flags.changed with
        | true =>
            refine ⟨?_, ?_, by simp, hOffers.capture⟩
            · simpa using hKey
            · simpa using hVersion
        | false =>
            have hPlain : p.flags.changed = true := by
              simpa [hLayer] using hEither.symm
            exact ⟨hKey, hVersion, hPlain, hOffers⟩
      rcases hQ with ⟨hKey, hVersion, hChanged, hOffers⟩
      rcases hOffers.publishes with ⟨value, hPut⟩
      simp only [o, Entry.commit, Entry.ready_stacked_plain,
        hReadied, Entry.settle]
      rcases Plain.commit_cases (δ := δ) hChanged c asked with
        ⟨refusal, _, hResult, hSame, hEntry⟩ |
        ⟨hCarried, hResult, hEntry⟩
      · left
        simp only [hResult, hEntry, hSame]
        refine ⟨refusal, rfl, trivial,
          .layered hKey ?_ (hOffers.withVersion _) ?_⟩
        · simp only [hVersion, v]
        · simp [hOpen, hChanged]
      · right
        rw [hPut, hKey, hVersion] at hCarried
        simp only [hResult, hEntry]
        refine ⟨trivial, ⟨value, hCarried⟩,
          .layered hKey ?_ (hOffers.finish _) ?_⟩
        · simp only [Plain.finish, hVersion, v]
        · rw [Layer.changed_replay]
          rfl

end Sight.Of

end OverlayCache

------------------------------------------------------------
-- Openings
------------------------------------------------------------

namespace OverlayCache

namespace Sight

variable {K V α δ ω : Type}
variable [Delta δ ω]

/- A layer over a prepared entry is in its first transaction. -/
theorem of_wrap
    (o : Opener)
    (h : Handle α)
    {p : Plain K (Handle α)}
    (hOffers : p.Offers)
    {key : K}
    {version : Option Version}
    (hKey : p.key = key)
    (hVersion : p.version = version) :
    ({ key := key, version := version } : Sight K).Of
      version (o.wrap (δ := δ) h p) :=
  .layered (p.key_capture.trans hKey)
    (p.version_capture.trans hVersion) hOffers.capture
    (by simp)

variable [Ord K] [Std.TransOrd K] [Inhabited α]

/-
  An opened entry knows the version that the container has for
  the key, which is none if the key is absent.
-/
theorem of_beginWrite
    (o : Opener)
    (c : Container K (Handle α))
    (store : Heap α)
    (key : K) :
    ({ key := key, version := c.version? key } : Sight K).Of
      (c.version? key)
      (o.beginWrite (δ := δ) c store key).entry := by
  unfold Opener.beginWrite
  cases hStored : c.stored? key with
  | some stored =>
      simp only [Container.get?, Container.version?, hStored,
        Option.map_some, Option.bind_some]
      have hOffers :
          Plain.Offers
            { Plain.existing key (some stored.value) with
              version := stored.version } :=
        Plain.offers_of_unchanged ⟨stored.value, rfl⟩ rfl rfl
      exact of_wrap o stored.value hOffers rfl rfl
  | none =>
      simp only [Container.get?, Container.version?, hStored,
        Option.map_none, Option.bind_none]
      have hOffers :
          (Plain.created key (store.alloc default).1).Offers :=
        Plain.offers_of_unchanged ⟨_, rfl⟩ rfl rfl
      exact of_wrap o (store.alloc default).1 hOffers rfl rfl

end Sight

end OverlayCache
