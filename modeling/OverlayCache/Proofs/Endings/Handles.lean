import OverlayCache.Proofs.Commit.Stack
import OverlayCache.Proofs.Endings.AtRest

/-
  Rollbacks of stacks in which every level holds one handle.

  Nothing is replayed before a commit, so a rollback has no
  need to touch the aggregate behind the handle.  It takes the
  values of the layers from the bottom, which holds the handle
  again.  What is appended afterwards starts a transaction of
  its own, whose commit publishes the handle with no more than
  that taken in.

  Key definitions include:
    * `Entry.Holds`

  The main statements are:
    * `Entry.Holds.rollback`
    * `Entry.after_appends`
    * `Entry.Holds.commit_after_appends`
    * `Entry.rollback_of_shared_stack`
-/

------------------------------------------------------------
-- Stacks That Hold One Value
------------------------------------------------------------

namespace OverlayCache

theorem Layer.value_discard
    {K V δ ω : Type} [Delta δ ω]
    (l : Layer K V δ ω)
    (value : Option V) :
    (l.discard value).1.value =
      if l.flags.changed then value else l.value := by
  unfold discard
  split
  · rfl
  · rfl

namespace Entry

variable {K V δ ω : Type}

/-
  Every level of a stack over a plain entry holds one value,
  which is also what the plain entry was before.
-/
inductive Holds (v : V) : Entry K V δ ω → Prop
| plain
    {p : Plain K V}
    (hValue : p.value = some v)
    (hCaptured :
      ∀ before : Captured V,
        p.captured = some before → before.value = some v) :
    Holds v (.plain p)
| stacked
    {l : Layer K V δ ω}
    {below : Entry K V δ ω}
    (hValue : l.value = some v)
    (hBelow : Holds v below) :
    Holds v (.stacked l below)

namespace Holds

variable {v : V}
variable {e : Entry K V δ ω}

theorem value_eq (h : e.Holds v) : e.value = some v := by
  cases h with
  | plain hValue hCaptured => exact hValue
  | stacked hValue hBelow => exact hValue

theorem layerValues (h : e.Holds v) :
    ∀ value ∈ e.layerValues, value = some v := by
  induction h with
  | plain hValue hCaptured => simp [Entry.layerValues]
  | stacked hValue hBelow ih =>
      simp only [Entry.layerValues, List.mem_cons,
        forall_eq_or_imp]
      exact ⟨hValue, ih⟩

/- There is a plain entry at the bottom, with the value. -/
theorem bottom (h : e.Holds v) :
    ∃ p : Plain K V,
      e.bottom = .plain p ∧ p.value = some v := by
  induction h with
  | plain hValue hCaptured => exact ⟨_, rfl, hValue⟩
  | stacked hValue hBelow ih => exact ih

/- The layers that were written to get the value from below. -/
theorem rollback
    [Delta δ ω]
    (h : e.Holds v) :
    e.rollback.1.Holds v := by
  induction h with
  | @plain p hValue hCaptured =>
      simp only [Entry.rollback, Plain.rollback_eq]
      refine .plain ?_ (by simp)
      cases hHeld : p.captured with
      | none => simp [Plain.before, hHeld, hValue]
      | some before =>
          rw [Plain.before_of_captured hHeld]
          exact hCaptured before hHeld
  | @stacked l below hValue hBelow ih =>
      have hHeld :
          (l.discard below.rollback.1.value).1.value =
            some v := by
        rw [l.value_discard, ih.value_eq, hValue, ite_self]
      exact .stacked hHeld ih

end Holds

/- Nothing is pending in an entry at rest. -/
theorem AtRest.pendingLevels
    [Delta δ ω]
    {e : Entry K V δ ω}
    (h : e.AtRest) :
    ∀ ds ∈ e.pendingLevels, ds = [] := by
  induction h with
  | plain h => simp [Entry.pendingLevels]
  | alone h => simp [Entry.pendingLevels, h.pending]
  | stacked h hBelow ih =>
      simp only [Entry.pendingLevels, List.mem_append,
        List.mem_singleton]
      rintro ds (hMem | rfl)
      · exact ih ds hMem
      · exact h.pending

end Entry

/- Transactions without deltas leave an aggregate alone. -/
theorem Aggregate.absorbAll_of_nil
    {α δ : Type} [Aggregate α δ]
    {ts : List (List δ)}
    (hNil : ∀ ds ∈ ts, ds = [])
    (a : α) :
    absorbAll ts a = a := by
  induction ts with
  | nil => rfl
  | cons ds ts ih =>
      rcases List.forall_mem_cons.mp hNil with ⟨rfl, hRest⟩
      exact ih hRest

end OverlayCache

------------------------------------------------------------
-- Appending On Top
------------------------------------------------------------

namespace OverlayCache

namespace Entry

variable {γ K V δ ω : Type} [Delta δ ω]

/-
  The topmost layer takes all deltas in, strict or not, as
  long as the key is valid and not removed.
-/
theorem after_appends
    {l : Layer K V δ ω}
    {below : Entry K V δ ω}
    (hValid : below.is .valid = true)
    (hKept : below.is .removed = false)
    (ds : List δ) :
    ∃ m : Layer K V δ ω,
      (Entry.stacked l below).after (ds.map .append) =
          .stacked m below ∧
        m.value = l.value ∧
        m.pending = l.pending ++ ds ∧
        (l.flags.changed = true ∨ ds ≠ [] →
          m.flags.changed = true) := by
  induction ds generalizing l with
  | nil => exact ⟨l, rfl, rfl, by simp, by simp⟩
  | cons d ds ih =>
      let l' := l.append (below.is .created) d
      have hTaken :
          ((Entry.stacked l below).call (.append d)).entry =
            .stacked l' below := by
        simp [call, append, top?, is, hValid, hKept, l',
          withTop]
      rcases ih (l := l') with
        ⟨m, hAfter, hValue, hPending, hChanged⟩
      refine ⟨m, ?_, ?_, ?_, ?_⟩
      · rw [← hAfter, ← hTaken]
        rfl
      · exact hValue.trans (l.value_append _ d)
      · rw [hPending, l.pending_append]
        simp
      · intro _
        exact hChanged (Or.inl (by simp [l']))

variable {α : Type} [Inhabited α] [Aggregate α δ]
variable [Repository γ K (Handle α)]

/- A shared stack offers what its levels hold. -/
omit [Delta δ ω] in
theorem Holds.offer?_eq
    {V : Type}
    {v : V}
    {e : Entry K V δ ω}
    (hHolds : e.Holds v)
    (hTouched : e.isTouched = true)
    (hValid : e.is .valid = true)
    (hKept : e.is .removed = false) :
    e.offer? = some v := by
  rcases hHolds.bottom with ⟨p, hBottom, hHeld⟩
  simp only [offer?, hTouched, hValid, hKept, hBottom]
  exact hHeld

/-
  The handle of a stack at rest is offered once anything was
  appended, and its aggregate takes in just that.
-/
theorem Holds.commit_after_appends
    {e : Entry K (Handle α) δ ω}
    {h : Handle α}
    (hHolds : e.Holds h)
    (hRest : e.AtRest)
    (hLayers : e.layers ≠ [])
    (hValid : e.is .valid = true)
    (hKept : e.is .removed = false)
    {ds : List δ}
    (hNe : ds ≠ [])
    (c : γ)
    (s : Heap α)
    (version : Option Version) :
    let v := version.or e.bottom.version
    let o := (e.after (ds.map .append)).commit c s version
    (∀ c' : γ,
      Repository.put c e.bottom.key h v = .ok c' →
        o.result = .ok () ∧
          o.container = c' ∧
          ∀ g : Handle α,
            o.store.read g =
              if g = h then
                Aggregate.absorb ds (s.read h)
              else
                s.read g) ∧
      ∀ refusal : Refusal,
        Repository.put c e.bottom.key h v =
            .error refusal →
          o.result = .error refusal := by
  intro v o
  cases hHolds with
  | plain hValue hCaptured => simp [layers] at hLayers
  | @stacked l below hValue hBelow =>
      cases hRest with
      | stacked hLayer hRestBelow =>
          have hValid' : below.is .valid = true := hValid
          have hKept' : below.is .removed = false := hKept
          rcases after_appends (l := l) hValid' hKept' ds with
            ⟨m, hAfter, hSame, hPending, hChanged⟩
          let f : Entry K (Handle α) δ ω := .stacked m below
          have hShared : f.Holds h :=
            .stacked (hSame.trans hValue) hBelow
          have hTouched : f.isTouched = true :=
            isTouched_of_isChanged (hChanged (Or.inr hNe))
          have hOffer : f.offer? = some h :=
            hShared.offer?_eq hTouched hValid hKept
          -- Nothing but the appended deltas is pending.
          have hOnly :
              Aggregate.absorbAll f.pendingLevels (s.read h) =
                Aggregate.absorb ds (s.read h) := by
            rw [hLayer.pending, List.nil_append] at hPending
            simp only [f, pendingLevels, hPending,
              Aggregate.absorbAll_append,
              Aggregate.absorbAll_of_nil
                hRestBelow.pendingLevels]
            rfl
          rcases hBelow.bottom with ⟨p, hBottom, _⟩
          have hEnd :
              (Entry.stacked l below).bottom = .plain p :=
            hBottom
          have hOffered :=
            commit_of_offer? (e := f) hBottom hOffer c s version
          have hTop : o = f.commit c s version := by
            simp only [o, hAfter, f]
          simp only [v, hEnd]
          rw [hTop]
          refine ⟨?_, hOffered.2⟩
          intro c' hTaken
          rcases hOffered.1 c' hTaken with ⟨hOk, hContainer⟩
          refine ⟨hOk, hContainer, ?_⟩
          intro g
          rw [← hOnly]
          exact read_commit_of_shared hShared.layerValues hOk g

end Entry

end OverlayCache

------------------------------------------------------------
-- Rollbacks Of Shared Stacks
------------------------------------------------------------

namespace OverlayCache

namespace Entry

variable {γ K V δ ω σ : Type}

section Restored

variable [Repository γ K V]
variable [Delta δ ω] [Holding V σ δ]
variable {start : Entry K V δ ω}
variable {past : List (Move γ K V δ σ)}
variable {r : Plain K V}

/-
  A rollback over a plain entry brings back its flags as they
  were when it was last not prepared, under the same key and
  at the version that was set since.
-/
theorem Unused.exists_restored
    (h : start.Unused)
    (hNow : (start.moves past).bottom = .plain r) :
    ∃ (earlier : List (Move γ K V δ σ)) (q : Plain K V),
      start.LastUnprepared past earlier ∧
        (start.moves past).rollback.1.bottom = .plain q ∧
        q.flags = (start.moves earlier).bottom.ownFlags ∧
        q.key = r.key ∧
        q.version = r.version := by
  rcases bottom_plain_of_moves hNow with ⟨_, hStart⟩
  cases h with
  | alone key value config => cases hStart
  | @plain p hRest =>
      rcases exists_lastUnprepared hRest past with
        ⟨earlier, q, r', hLast, hThen, hNow', _, hBefore⟩
      cases hNow.symm.trans hNow'
      have hEnd :
          ((Entry.plain p).moves past).rollback.1.bottom =
            .plain (r.rollback (δ := δ)).1 := by
        rw [bottom_rollback, hNow]
        rfl
      have hFlags :
          (r.rollback (δ := δ)).1.flags = q.flags := by
        rw [Plain.rollback_eq, hBefore]
      refine
        ⟨earlier, _, hLast, hEnd, ?_, r.key_rollback,
          version_rollback r⟩
      rw [hThen]
      exact hFlags

end Restored

variable {α : Type}
variable [Inhabited α] [Aggregate α δ] [Delta δ ω]
variable [Repository γ K (Handle α)]

/-
  A rollback of a stack that holds one handle, after whatever
  happened to it, touches no container and no aggregate.  It
  leaves every level at rest with the handle, and the plain
  entry with the flags that it had when it was last not
  prepared.

  If the key was valid and not removed then, deltas that are
  appended on top are what the next commit adds.  It publishes
  the handle, unless the repository refuses.
-/
theorem rollback_of_shared_stack
    [Ord K] [Std.TransOrd K]
    {start : Entry K (Handle α) δ ω}
    (hUnused : start.Unused)
    {past : List (Move γ K (Handle α) δ (Heap α))}
    {h : Handle α}
    (hHolds : (start.moves past).Holds h) :
    let e := start.moves past
    let e' := e.rollback.1
    (∀ (w : Workspace K (Handle α) δ ω (Heap α))
        (name : String),
      w.entry? name = some e →
        let w' := (w.step (.callEntry name .rollback)).workspace
        w'.entry? name = some e' ∧
          w'.containers = w.containers ∧
          w'.store = w.store) ∧
      e'.AtRest ∧
      e'.Holds h ∧
      ∃ earlier : List (Move γ K (Handle α) δ (Heap α)),
        start.LastUnprepared past earlier ∧
          let flags := (start.moves earlier).bottom.ownFlags
          e'.bottom.ownFlags = flags ∧
            (e.layers ≠ [] →
              flags.valid = true →
              flags.removed = false →
              ∀ ds : List δ,
                ds ≠ [] →
                ∀ (c : γ) (s : Heap α)
                  (version : Option Version),
                  let v := version.or e.bottom.version
                  let o :=
                    (e'.after (ds.map .append)).commit c s
                      version
                  (∀ c' : γ,
                    Repository.put c e.bottom.key h v =
                        .ok c' →
                      o.result = .ok () ∧
                        o.container = c' ∧
                        ∀ g : Handle α,
                          o.store.read g =
                            if g = h then
                              Aggregate.absorb ds (s.read h)
                            else
                              s.read g) ∧
                    ∀ refusal : Refusal,
                      Repository.put c e.bottom.key h v =
                          .error refusal →
                        o.result = .error refusal) := by
  intro e e'
  have hRest : e'.AtRest := hUnused.atRest_rollback past
  have hHeld : e'.Holds h := hHolds.rollback
  refine ⟨?_, hRest, hHeld, ?_⟩
  · intro w name hEntry w'
    have hStep : w' = w.keepEntry name e' :=
      congrArg Workspace.Turn.workspace
        (Workspace.callEntry_eq hEntry .rollback)
    rw [hStep]
    refine ⟨?_, rfl, rfl⟩
    simp [Workspace.entry?_keepEntry]
  · rcases hHolds.bottom with ⟨r, hNow, _⟩
    rcases hUnused.exists_restored hNow with
      ⟨earlier, q, hLast, hEnd, hFlags, hKey, hVersion⟩
    refine ⟨earlier, hLast, ?_⟩
    intro flags
    have hSame : e'.bottom.ownFlags = flags := by
      rw [hEnd]
      exact hFlags
    refine ⟨hSame, ?_⟩
    intro hLayers hValid hKept ds hNe c s version
    have hStill : e'.layers ≠ [] := by
      intro hNone
      have hLength :=
        e.levelwise_rollback.forall₂_layers.length_eq
      rw [hNone] at hLength
      exact hLayers (List.eq_nil_of_length_eq_zero hLength)
    have hBottomKey : e.bottom.key = e'.bottom.key := by
      rw [hNow, hEnd]
      exact hKey.symm
    have hBottomVersion :
        e.bottom.version = e'.bottom.version := by
      rw [hNow, hEnd]
      exact hVersion.symm
    rw [hBottomKey, hBottomVersion]
    apply hHeld.commit_after_appends hRest hStill
    · rw [e'.is_eq_has_bottom (by decide), hSame]
      exact hValid
    · rw [e'.is_eq_has_bottom (by decide), hSame]
      exact hKept
    · exact hNe

/-
  A key is created and removed, and two layers are put over
  it.  A closed container refuses the removal, and a rollback
  takes it back.  Two more deltas are committed then.
-/
theorem commit_after_refused_removal :
    let h : Handle (TrackedMap Nat Nat) := ⟨0⟩
    let start :
        Entry Nat (Handle (TrackedMap Nat Nat))
          (MapDelta Nat Nat) (TrackedMap Nat Nat) :=
      .plain (.created 1 h)
    let closed : Container Nat (Handle (TrackedMap Nat Nat)) :=
      (Container.empty none).close
    let past :
        List
          (Move (Container Nat (Handle (TrackedMap Nat Nat)))
            Nat (Handle (TrackedMap Nat Nat))
            (MapDelta Nat Nat) (Heap (TrackedMap Nat Nat))) :=
      [.act .empty (.call .prepare),
        .act .empty (.call (.mark .removed true)),
        .cover 1 (some h) {},
        .cover 1 (some h) {},
        .act .empty (.call (.append ⟨[.put 1 10]⟩)),
        .act .empty (.commit closed (some ⟨7⟩))]
    let e := start.moves past
    let e' := e.rollback.1
    let s : Heap (TrackedMap Nat Nat) :=
      Heap.empty.write h (.ofList [(1, 5), (4, 40)])
    let c : Container Nat (Handle (TrackedMap Nat Nat)) :=
      .empty none
    let ds : List (MapDelta Nat Nat) :=
      [⟨[.put 2 20]⟩, ⟨[.remove 4]⟩]
    let o := (e'.after (ds.map .append)).commit c s none
    e.is .removed = true ∧
      e'.is .removed = false ∧
      e'.is .created = true ∧
      o.result = .ok () ∧
      o.container.stored? 1 = some ⟨h, some ⟨7⟩⟩ ∧
      (o.store.read h).toList = [(1, 5), (2, 20)] := by
  intro h start closed past e e' s c ds o
  have hUnused : start.Unused := .plain ⟨rfl, rfl⟩
  have hHolds : e.Holds h := by
    refine .stacked rfl (.stacked rfl (.plain rfl ?_))
    intro before hBefore
    cases hBefore
    rfl
  rcases rollback_of_shared_stack hUnused hHolds with
    ⟨_, _, _, earlier, _, hFlags, hLater⟩
  have hValid :
      (start.moves earlier).bottom.ownFlags.valid = true := by
    rw [← hFlags]
    rfl
  have hKept :
      (start.moves earlier).bottom.ownFlags.removed =
        false := by
    rw [← hFlags]
    rfl
  rcases (hLater (by decide) hValid hKept ds (by decide) c s
      none).1 _ rfl with
    ⟨hOk, hContainer, hRead⟩
  refine ⟨rfl, rfl, rfl, hOk, ?_, ?_⟩
  · rw [hContainer]
    decide
  · rw [hRead h, if_pos rfl]
    decide

end Entry

end OverlayCache
