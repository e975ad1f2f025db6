import OverlayCache.Counter
import OverlayCache.Proofs.Layers.Consistent

/-
  The first write of a transaction.

  A layer that stands alone notes what it can go back to when
  it is first written to, by a preparation or by a delta that
  is not refused.  Nothing that is done to the layer later in
  the transaction alters the note, and a rollback goes back to
  it.  A rollback before the first write has nothing to undo.

  Key definitions include:
    * `Entry.Call.Continues`
    * `Entry.writes`
    * `Entry.after`
    * `Entry.atFirstWrite?`
    * `Entry.restorable`

  The main statements are:
    * `Entry.call_alone`
    * `Entry.after_of_changed`
    * `Entry.after_of_unchanged`
    * `Entry.rollback_restores_first_write`
-/

------------------------------------------------------------
-- Writes
------------------------------------------------------------

namespace OverlayCache

namespace Entry

/- The calls that do not end a transaction. -/
def Call.Continues {V δ : Type} : Call V δ → Prop
| .rollback => False
| _ => True

/- Whether a call was carried out with nothing to answer. -/
def Reply.isDone {V : Type} : Reply V → Bool
| .done => true
| _ => false

variable {K V δ ω : Type} [Delta δ ω]

/- Whether a call writes, which a refused delta does not. -/
def writes (e : Entry K V δ ω) : Call V δ → Bool
| .prepare => true
| .append d => (e.append d).reply.isDone
| _ => false

/- Carry out calls in order. -/
def after
    (e : Entry K V δ ω)
    (cs : List (Call V δ)) : Entry K V δ ω :=
  cs.foldl (fun f c => (f.call c).entry) e

/- The entry just before the first of the calls that writes. -/
def atFirstWrite? (e : Entry K V δ ω) :
    List (Call V δ) → Option (Entry K V δ ω)
| [] => none
| c :: cs =>
    if e.writes c then
      some e
    else
      (e.call c).entry.atFirstWrite? cs

/- What there is to go back to, unless the key is new. -/
def restorable (e : Entry K V δ ω) : Option V :=
  if e.is .created then none else e.value

end Entry

end OverlayCache

------------------------------------------------------------
-- Calls On A Layer That Stands Alone
------------------------------------------------------------

namespace OverlayCache

namespace Layer

variable {K V δ ω : Type}

/- A transaction is started once. -/
theorem start_of_changed
    {l : Layer K V δ ω}
    (hChanged : l.flags.changed = true)
    (created : Bool) :
    l.start created = l :=
  if_pos hChanged

/- At its start the live value is noted, unless it is new. -/
theorem snapshot_start_of_unchanged
    {l : Layer K V δ ω}
    (hUnchanged : l.flags.changed = false)
    (hNone : l.snapshot = none) :
    (l.start l.flags.created).snapshot =
      (Entry.alone l).restorable := by
  cases hCreated : l.flags.created with
  | true =>
      simp [start, hUnchanged, hCreated, hNone,
        Entry.restorable, Entry.is, Flags.has]
  | false =>
      simp [start, hUnchanged, hCreated, Entry.restorable,
        Entry.is, Entry.value, Flags.has]

end Layer

namespace Entry

variable {K V δ ω : Type} [Delta δ ω]

/-
  A call that writes starts the transaction, if none is on its
  way.  The other calls change neither that nor the snapshot.
-/
theorem call_alone
    (l : Layer K V δ ω)
    {c : Call V δ}
    (hCall : c.Continues) :
    ∃ m : Layer K V δ ω,
      ((Entry.alone l).call c).entry = .alone m ∧
        if (Entry.alone l).writes c then
          m.flags.changed = true ∧
            m.snapshot = (l.start l.flags.created).snapshot
        else
          m.flags.changed = l.flags.changed ∧
            m.snapshot = l.snapshot := by
  cases c with
  | append d =>
      simp only [call, writes, append, top?]
      split
      · exact ⟨l, rfl, rfl, rfl⟩
      · exact ⟨l.append l.flags.created d, rfl, by simp, rfl⟩
  | setValue value => exact ⟨_, rfl, rfl, rfl⟩
  | mark m on => cases m <;> exact ⟨_, rfl, rfl, rfl⟩
  | setLock on => exact ⟨l, rfl, rfl, rfl⟩
  | setVersion version => exact ⟨l, rfl, rfl, rfl⟩
  | configure config => exact ⟨_, rfl, rfl, rfl⟩
  | prepare =>
      exact ⟨l.start l.flags.created, rfl, by simp, rfl⟩
  | rollback => exact hCall.elim
  | undelete on =>
      simp only [call, undelete]
      split
      · exact ⟨_, rfl, rfl, rfl⟩
      · exact ⟨l, rfl, rfl, rfl⟩

/- What was noted stays for the rest of the transaction. -/
theorem after_of_changed
    {l : Layer K V δ ω}
    (hChanged : l.flags.changed = true)
    {cs : List (Call V δ)}
    (hCalls : ∀ c ∈ cs, c.Continues) :
    ∃ m : Layer K V δ ω,
      (Entry.alone l).after cs = .alone m ∧
        m.flags.changed = true ∧
        m.snapshot = l.snapshot := by
  induction cs generalizing l with
  | nil => exact ⟨l, rfl, hChanged, rfl⟩
  | cons c cs ih =>
      rcases List.forall_mem_cons.mp hCalls with
        ⟨hFirst, hRest⟩
      rcases call_alone l hFirst with ⟨m, hEntry, hStep⟩
      rw [Layer.start_of_changed hChanged, hChanged,
        ite_self] at hStep
      rcases ih hStep.1 hRest with ⟨n, hAfter, hUp, hSame⟩
      refine ⟨n, ?_, hUp, hSame.trans hStep.2⟩
      rw [← hAfter, ← hEntry]
      rfl

/-
  A layer without a transaction stays without one until the
  first write, which notes what it finds.
-/
theorem after_of_unchanged
    {l : Layer K V δ ω}
    (hUnchanged : l.flags.changed = false)
    (hNone : l.snapshot = none)
    {cs : List (Call V δ)}
    (hCalls : ∀ c ∈ cs, c.Continues) :
    ∃ m : Layer K V δ ω,
      (Entry.alone l).after cs = .alone m ∧
        (∀ w : Entry K V δ ω,
          (Entry.alone l).atFirstWrite? cs = some w →
            m.flags.changed = true ∧
              m.snapshot = w.restorable) ∧
        ((Entry.alone l).atFirstWrite? cs = none →
          m.flags.changed = false) := by
  induction cs generalizing l with
  | nil =>
      refine ⟨l, rfl, ?_, fun _ => hUnchanged⟩
      intro w hWrite
      cases hWrite
  | cons c cs ih =>
      rcases List.forall_mem_cons.mp hCalls with
        ⟨hFirst, hRest⟩
      rcases call_alone l hFirst with ⟨m, hEntry, hStep⟩
      have hAfter :
          (Entry.alone l).after (c :: cs) =
            (Entry.alone m).after cs := by
        rw [← hEntry]
        rfl
      rw [hAfter]
      cases hWrites : (Entry.alone l).writes c with
      | true =>
          rw [hWrites, if_pos rfl,
            Layer.snapshot_start_of_unchanged hUnchanged hNone]
            at hStep
          rcases after_of_changed hStep.1 hRest with
            ⟨n, hLast, hUp, hSame⟩
          refine ⟨n, hLast, ?_, ?_⟩
          · intro w hWrite
            simp only [atFirstWrite?, hWrites, if_true,
              Option.some.injEq] at hWrite
            rw [← hWrite]
            exact ⟨hUp, hSame.trans hStep.2⟩
          · simp [atFirstWrite?, hWrites]
      | false =>
          rw [hWrites, if_neg Bool.false_ne_true, hUnchanged,
            hNone] at hStep
          simp only [atFirstWrite?, hWrites, hEntry]
          exact ih hStep.1 hStep.2 hRest

end Entry

end OverlayCache

------------------------------------------------------------
-- Rollbacks
------------------------------------------------------------

namespace OverlayCache

namespace Entry

variable {γ K V δ ω σ : Type}
variable [Repository γ K V]
variable [Delta δ ω] [Holding V σ δ]

/-
  Anything has happened to a layer that stands alone, and no
  transaction is on its way.  Then it is called any number of
  times, but not rolled back.

  If one of the calls wrote to it, the snapshot is the live
  value just before the first that did, or nothing if the key
  was being created then.  A rollback brings exactly that back
  and forgets the transaction.  If none of them wrote to it, a
  rollback does nothing.
-/
theorem rollback_restores_first_write
    {start : Entry K V δ ω}
    (hBare : start.Bare)
    {past : List (Move γ K V δ σ)}
    {l : Layer K V δ ω}
    (hAlone : start.moves past = .alone l)
    (hUnchanged : l.flags.changed = false)
    {cs : List (Call V δ)}
    (hCalls : ∀ c ∈ cs, c.Continues) :
    ∃ m : Layer K V δ ω,
      (Entry.alone l).after cs = .alone m ∧
        (∀ w : Entry K V δ ω,
          (Entry.alone l).atFirstWrite? cs = some w →
            m.snapshot = w.restorable ∧
              (Entry.alone m).rollback.1 =
                .alone
                  { key := m.key
                    value := w.restorable
                    snapshot := none
                    pending := []
                    work := Delta.blank δ
                    flags := .untouched
                    config := m.config }) ∧
        ((Entry.alone l).atFirstWrite? cs = none →
          (Entry.alone m).rollback = (.alone m, [])) := by
  have hCoherent : l.Coherent := by
    apply coherent_moves hBare.coherent past
    rw [hAlone]
    exact List.mem_singleton_self l
  have hNone : l.snapshot = none :=
    hCoherent.snapshot hUnchanged
  rcases after_of_unchanged hUnchanged hNone hCalls with
    ⟨m, hAfter, hWritten, hUnwritten⟩
  refine ⟨m, hAfter, ?_, ?_⟩
  · intro w hWrite
    rcases hWritten w hWrite with ⟨hChanged, hSnapshot⟩
    refine ⟨hSnapshot, ?_⟩
    simp [rollback, Layer.discard, hChanged, hSnapshot,
      Layer.reset]
  · intro hNothing
    simp [rollback, Layer.discard, hUnwritten hNothing]

/-
  A strict layer has committed a delta.  It refuses one while
  the key is removed, and its value is replaced before and
  after a delta that it takes.
-/
theorem rollback_restores_after_refusal :
    let start : Entry Nat Counter CounterDelta Int64 :=
      .alone (.fresh 1 (some ⟨5, 0⟩) ⟨true, true⟩)
    let past : List (Move (Container Nat Counter) Nat Counter
        CounterDelta Unit) :=
      [.act () (.call (.append (.add 2))),
        .act () (.commit (.empty none) none)]
    let cs : List (Call Counter CounterDelta) :=
      [.mark .removed true,
        .append (.add 1),
        .undelete true,
        .setValue (some ⟨8, 4⟩),
        .append (.mul 3),
        .setValue none,
        .mark .created true,
        .prepare]
    ∃ m : Layer Nat Counter CounterDelta Int64,
      (start.moves past).after cs = .alone m ∧
        m.value = none ∧
        m.pending = [.mul 3] ∧
        m.snapshot = some ⟨8, 4⟩ ∧
        (Entry.alone m).rollback.1.value = some ⟨8, 4⟩ := by
  intro start past cs
  have hBare : start.Bare := .alone _ _ _
  have hCalls : ∀ c ∈ cs, c.Continues := by
    simp [cs, Call.Continues]
  have hAlone : start.moves past = .alone _ := rfl
  rcases rollback_restores_first_write hBare hAlone rfl
      hCalls with
    ⟨m, hAfter, hWritten, _⟩
  rcases hWritten _ rfl with ⟨hSnapshot, hRollback⟩
  have hValue :
      (Entry.alone m).rollback.1.value = some ⟨8, 4⟩ := by
    rw [hRollback]
    rfl
  refine ⟨m, hAfter, ?_, ?_, hSnapshot, hValue⟩
  · cases hAfter
    rfl
  · cases hAfter
    rfl

end Entry

end OverlayCache
