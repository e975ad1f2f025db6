import OverlayCache.Counter
import OverlayCache.Proofs.History

/-
  Histories of a layer that stands alone.

  Between two actions the live value is that of the tally and
  the accepted deltas are pending.  A snapshot is taken with
  the first write, and is the live value as long as nobody
  replaces it, so a rollback finds what the transaction began
  with.

  Key definitions include:
    * `Entry.Action.Transacts`
    * `Tally.KeptAlone`

  The main statements are:
    * `Tally.KeptAlone.act`
    * `Tally.KeptAlone.run`
    * `Entry.alone_value_after_history`
-/

------------------------------------------------------------
-- Layers That Carry A Tally
------------------------------------------------------------

namespace OverlayCache

namespace Entry

/- The calls of transactions on a key that exists. -/
def Call.Transacts {V δ : Type} : Call V δ → Prop
| .setValue _ => False
| .mark .created _ => False
| _ => True

/- The actions of transactions on a key that exists. -/
def Action.Transacts {γ V δ : Type} : Action γ V δ → Prop
| .call c => c.Transacts
| .commit _ _ => True

end Entry

namespace Tally

variable {K V δ ω : Type}

/- A layer is between two actions of a history. -/
structure CarriedBy
    (t : Tally V δ)
    (l : Layer K V δ ω) : Prop where
  value : l.value = some t.value
  pending : l.pending = t.accepted
  existing : l.flags.created = false
  restorable :
    l.flags.changed = true → l.snapshot = some t.value
  unwritten : l.flags.changed = false → t.accepted = []

namespace CarriedBy

variable {t : Tally V δ}
variable {l : Layer K V δ ω}

/- A first write takes the snapshot. -/
theorem start (h : t.CarriedBy l) :
    t.CarriedBy (l.start l.flags.created) where
  value := by rw [Layer.value_start, h.value]
  pending := by rw [Layer.pending_start, h.pending]
  existing := by simp [h.existing]
  restorable _ := by
    unfold Layer.start
    by_cases hChanged : l.flags.changed = true
    · simp [hChanged, h.restorable hChanged]
    · simp [hChanged, h.existing, h.value]
  unwritten hUnchanged := by simp at hUnchanged

/- The other flags may be moved, and so may the settings. -/
theorem withFlags
    (h : t.CarriedBy l)
    {flags : Flags}
    (hChanged : flags.changed = l.flags.changed)
    (hCreated : flags.created = l.flags.created) :
    t.CarriedBy { l with flags := flags } where
  value := h.value
  pending := h.pending
  existing := hCreated.trans h.existing
  restorable hUp := h.restorable (hChanged.symm.trans hUp)
  unwritten hDown := h.unwritten (hChanged.symm.trans hDown)

theorem withConfig
    (h : t.CarriedBy l)
    (config : Config) :
    t.CarriedBy { l with config := config } where
  value := h.value
  pending := h.pending
  existing := h.existing
  restorable := h.restorable
  unwritten := h.unwritten

variable [Delta δ ω]

theorem append
    (h : t.CarriedBy l)
    (d : δ) :
    { t with accepted := t.accepted ++ [d] }.CarriedBy
      (l.append l.flags.created d) where
  value := by rw [Layer.value_append, h.value]
  pending := by rw [Layer.pending_append, h.pending]
  existing := by simp [h.existing]
  restorable hUp := h.start.restorable hUp
  unwritten hUnchanged := by simp at hUnchanged

/- A layer that was reset carries no deltas. -/
theorem reset (v : V) :
    (Tally.mk v ([] : List δ)).CarriedBy
      (Layer.reset { l with value := some v }) where
  value := rfl
  pending := rfl
  existing := rfl
  restorable hUp := by simp [Layer.reset, Flags.untouched]
    at hUp
  unwritten _ := rfl

/- A rollback goes back to what the transaction began with. -/
theorem discard (h : t.CarriedBy l) :
    { t with accepted := [] }.CarriedBy
      (l.discard l.snapshot).1 := by
  unfold Layer.discard
  by_cases hChanged : l.flags.changed = true
  · rw [if_pos hChanged, h.restorable hChanged]
    exact reset t.value
  · rw [if_neg hChanged]
    have hUnchanged : l.flags.changed = false := by
      simpa using hChanged
    have hSame : { t with accepted := [] } = t := by
      rw [← h.unwritten hUnchanged]
    rw [hSame]
    exact h

/- A commit makes the value absorb the pending deltas. -/
theorem replay
    [Aggregate V δ]
    (h : t.CarriedBy l) :
    t.close.CarriedBy (l.replay ()).layer := by
  unfold Layer.replay
  rw [h.value]
  simp only [Holding.replay_value, h.pending]
  exact reset (Aggregate.absorb t.accepted t.value)

end CarriedBy

end Tally

end OverlayCache

------------------------------------------------------------
-- Histories
------------------------------------------------------------

namespace OverlayCache

namespace Tally

variable {γ K V δ ω : Type}
variable [Repository γ K V]
variable [Delta δ ω] [Aggregate V δ]

/- An entry is such a layer and stands alone. -/
inductive KeptAlone
    (t : Tally V δ) : Entry K V δ ω → Prop
| alone
    {l : Layer K V δ ω}
    (h : t.CarriedBy l) :
    KeptAlone t (.alone l)

/- An undelete moves flags that no tally depends on. -/
omit [Aggregate V δ] [Delta δ ω] in
theorem CarriedBy.entry_undelete
    {t : Tally V δ}
    {l : Layer K V δ ω}
    (h : t.CarriedBy l)
    (on : Bool) :
    t.KeptAlone ((Entry.alone l).undelete on).2.1 := by
  unfold Entry.undelete
  by_cases hRemoved :
      ((Entry.alone l).bottom.is .removed && on) = true
  · simp only [hRemoved, if_true]
    exact .alone (h.withFlags rfl rfl)
  · simp only [hRemoved]
    exact .alone h

/- The commit of a layer that stands alone cannot fail. -/
theorem KeptAlone.commit
    {t : Tally V δ}
    {e : Entry K V δ ω}
    (h : t.KeptAlone e)
    (c : γ)
    (version : Option Version) :
    (e.commit c () version).result = .ok () ∧
      (e.commit c () version).container = c ∧
      t.close.KeptAlone (e.commit c () version).entry := by
  cases h with
  | alone h => exact ⟨rfl, rfl, .alone h.replay⟩

/- A tally follows each action of a transaction. -/
theorem KeptAlone.act
    {t : Tally V δ}
    {p : Entry.Point K V δ ω Unit}
    (h : t.KeptAlone p.entry)
    {a : Entry.Action γ V δ}
    (hAct : a.Transacts) :
    (t.act a (p.act a).reply).KeptAlone (p.act a).entry := by
  cases a with
  | commit c version =>
      rcases h.commit c version with ⟨hOk, _, hKept⟩
      simp only [Entry.Point.act, hOk, Tally.act]
      exact hKept
  | call c =>
      generalize hEntry : p.entry = e at h
      simp only [Entry.Point.act, hEntry]
      cases h with
      | @alone l h =>
          cases c with
          | append d =>
              simp only [Entry.call, Entry.append,
                Entry.top?]
              by_cases hRefused :
                  (l.config.strict &&
                    ((Entry.alone l).is .removed ||
                      !(Entry.alone l).is .valid)) = true
              · rw [if_pos hRefused]
                exact .alone h
              · rw [if_neg hRefused]
                exact .alone (h.append d)
          | setValue value => exact hAct.elim
          | mark m on =>
              apply KeptAlone.alone
              cases m with
              | created => exact hAct.elim
              | removed => exact h.withFlags rfl rfl
              | valid => exact h.withFlags rfl rfl
              | evicted => exact h.withFlags rfl rfl
          | setLock on => exact .alone h
          | setVersion version => exact .alone h
          | configure config =>
              exact .alone (h.withConfig config)
          | prepare => exact .alone h.start
          | rollback => exact .alone h.discard
          | undelete on => exact h.entry_undelete on

/- A tally follows a whole history. -/
theorem KeptAlone.run
    {t : Tally V δ}
    {p : Entry.Point K V δ ω Unit}
    (h : t.KeptAlone p.entry)
    {actions : List (Entry.Action γ V δ)}
    (hActions : ∀ a ∈ actions, a.Transacts) :
    (t.run p actions).KeptAlone (p.run actions).entry := by
  induction actions generalizing t p with
  | nil => exact h
  | cons a actions ih =>
      have hFirst :=
        h.act (hActions a List.mem_cons_self)
      apply ih hFirst
      intro b hMem
      exact hActions b (List.mem_cons_of_mem a hMem)

end Tally

namespace Entry

variable {γ K V δ ω : Type}
variable [Repository γ K V]
variable [Delta δ ω] [Aggregate V δ]

/-
  After any history of transactions on a layer that stands
  alone, its value is what the committed transactions made of
  the first one.  A commit to any repository goes through at
  any time, and leaves the repository alone.
-/
theorem alone_value_after_history
    (key : K)
    (v : V)
    (config : Config)
    {actions : List (Action γ V δ)}
    (hActions : ∀ a ∈ actions, a.Transacts) :
    let p : Point K V δ ω Unit :=
      { entry := .alone (.fresh key (some v) config)
        store := () }
    let e := (p.run actions).entry
    e.value = some ((Tally.mk v []).run p actions).value ∧
      ∀ (c : γ) (version : Option Version),
        (e.commit c () version).result = .ok () ∧
          (e.commit c () version).container = c := by
  intro p e
  have hFresh :
      (Tally.mk v ([] : List δ)).KeptAlone p.entry := by
    apply Tally.KeptAlone.alone
    refine ⟨rfl, rfl, rfl, ?_, fun _ => rfl⟩
    intro hUp
    simp [Layer.fresh, Flags.untouched] at hUp
  have hKept := hFresh.run hActions
  generalize (Tally.mk v ([] : List δ)).run p actions = t
    at hKept ⊢
  refine ⟨?_, ?_⟩
  · change t.KeptAlone e at hKept
    generalize e = e' at hKept ⊢
    cases hKept with
    | alone h => exact h.value
  · intro c version
    rcases hKept.commit c version with ⟨hOk, hSame, _⟩
    exact ⟨hOk, hSame⟩

/-
  The first transaction of a strict layer is committed and the
  second one rolled back.  In the third one a delta is refused,
  and the delta of the last one is pending.
-/
def mixedHistory :
    List
      (Action (Container Nat Counter) Counter CounterDelta) :=
  [.call (.append (.add 2)),
    .call (.append (.mul 3)),
    .commit (.empty none) none,
    .call (.append (.set 0)),
    .call .rollback,
    .call (.mark .removed true),
    .call (.append (.add 7)),
    .call (.undelete true),
    .call .prepare,
    .commit (.empty (some 0)) none,
    .call (.append (.add 1))]

theorem alone_value_after_mixedHistory :
    let p : Point Nat Counter CounterDelta Int64 Unit :=
      { entry := .alone (.fresh 0 (some ⟨1, 0⟩) ⟨true, true⟩)
        store := () }
    (p.run mixedHistory).entry.value = some ⟨9, 1⟩ := by
  intro p
  have hActions : ∀ a ∈ mixedHistory, a.Transacts := by
    simp [mixedHistory, Action.Transacts, Call.Transacts]
  have hValue :=
    (alone_value_after_history 0 ⟨1, 0⟩ ⟨true, true⟩
      hActions).1
  exact hValue.trans (by decide)

end Entry

end OverlayCache
