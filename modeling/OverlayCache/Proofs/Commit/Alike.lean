import OverlayCache.Entry.Call
import OverlayCache.Entry.Commit

/-
  Entries that differ only in what a preparation leaves behind.

  Preparing an entry raises changed flags and takes snapshots.
  It leaves alone what the levels hold, what is pending and
  merged in them, and the lifecycle of the key.  Entries that
  are alike in all of this stay alike under every call but a
  rollback.

  Key definitions include:
    * `Flags.SameLifecycle`
    * `Layer.Alike`
    * `Plain.Alike`
    * `Entry.Alike`

  The main statements are:
    * `Entry.alike_ready`
    * `Entry.Alike.call`
-/

------------------------------------------------------------
-- Lifecycles
------------------------------------------------------------

namespace OverlayCache

namespace Flags

/- The flags agree, but for the changed flag. -/
def SameLifecycle (a b : Flags) : Prop :=
  ∀ flag : Flag, flag ≠ .changed → a.has flag = b.has flag

namespace SameLifecycle

variable {a b c : Flags}

theorem refl (a : Flags) : a.SameLifecycle a :=
  fun _ _ => rfl

theorem symm (h : a.SameLifecycle b) : b.SameLifecycle a :=
  fun flag hNe => (h flag hNe).symm

theorem trans
    (h : a.SameLifecycle b)
    (h' : b.SameLifecycle c) : a.SameLifecycle c :=
  fun flag hNe => (h flag hNe).trans (h' flag hNe)

/- Flags that are moved together still agree. -/
theorem assign
    (h : a.SameLifecycle b)
    (f : Flag)
    (on : Bool) :
    (a.assign f on).SameLifecycle (b.assign f on) := by
  intro flag hNe
  simp [h flag hNe]

/- A preparation does not touch the lifecycle. -/
theorem raise_changed (a : Flags) :
    (a.raise .changed).SameLifecycle a := by
  intro flag hNe
  simp [hNe]

end SameLifecycle

end Flags

end OverlayCache

------------------------------------------------------------
-- Levels
------------------------------------------------------------

namespace OverlayCache

variable {K V δ ω : Type}

/- Two layers differ in snapshots and changed flags only. -/
structure Layer.Alike (l m : Layer K V δ ω) : Prop where
  value : l.value = m.value
  pending : l.pending = m.pending
  work : l.work = m.work
  config : l.config = m.config
  flags : l.flags.SameLifecycle m.flags

/-
  Two plain entries agree in value and lifecycle.  What they
  captured may differ, and so may their versions.
-/
structure Plain.Alike (p q : Plain K V) : Prop where
  value : p.value = q.value
  flags : p.flags.SameLifecycle q.flags

namespace Layer

theorem Alike.refl (l : Layer K V δ ω) : l.Alike l :=
  ⟨rfl, rfl, rfl, rfl, .refl l.flags⟩

theorem Alike.symm
    {l m : Layer K V δ ω}
    (h : l.Alike m) : m.Alike l :=
  ⟨h.value.symm, h.pending.symm, h.work.symm,
    h.config.symm, h.flags.symm⟩

theorem Alike.trans
    {l m n : Layer K V δ ω}
    (h : l.Alike m)
    (h' : m.Alike n) : l.Alike n :=
  ⟨h.value.trans h'.value, h.pending.trans h'.pending,
    h.work.trans h'.work, h.config.trans h'.config,
    h.flags.trans h'.flags⟩

theorem alike_start
    (l : Layer K V δ ω)
    (created : Bool) :
    (l.start created).Alike l where
  value := l.value_start created
  pending := l.pending_start created
  work := l.work_start created
  config := l.config_start created
  flags := by
    rw [flags_start]
    exact .raise_changed l.flags

theorem Alike.append
    [Delta δ ω]
    {l m : Layer K V δ ω}
    (h : l.Alike m)
    (created created' : Bool)
    (d : δ) :
    (l.append created d).Alike (m.append created' d) where
  value := by simp [h.value]
  pending := by simp [h.pending]
  work := by simp [h.work]
  config := by simp [h.config]
  flags := by
    rw [flags_append, flags_append]
    exact h.flags.assign .changed true

end Layer

namespace Plain

theorem Alike.refl (p : Plain K V) : p.Alike p :=
  ⟨rfl, .refl p.flags⟩

theorem Alike.symm
    {p q : Plain K V}
    (h : p.Alike q) : q.Alike p :=
  ⟨h.value.symm, h.flags.symm⟩

theorem Alike.trans
    {p q r : Plain K V}
    (h : p.Alike q)
    (h' : q.Alike r) : p.Alike r :=
  ⟨h.value.trans h'.value, h.flags.trans h'.flags⟩

theorem alike_capture (p : Plain K V) :
    p.capture.Alike p where
  value := p.value_capture
  flags := by
    rw [flags_capture]
    exact .raise_changed p.flags

end Plain

end OverlayCache

------------------------------------------------------------
-- Stacks
------------------------------------------------------------

namespace OverlayCache

namespace Entry

variable {K V δ ω : Type}

/- Two entries are built alike and alike on every level. -/
inductive Alike :
    Entry K V δ ω → Entry K V δ ω → Prop
| plain
    {p q : Plain K V}
    (h : p.Alike q) :
    Alike (.plain p) (.plain q)
| alone
    {l m : Layer K V δ ω}
    (h : l.Alike m) :
    Alike (.alone l) (.alone m)
| stacked
    {l m : Layer K V δ ω}
    {e f : Entry K V δ ω}
    (h : l.Alike m)
    (hBelow : Alike e f) :
    Alike (.stacked l e) (.stacked m f)

namespace Alike

theorem refl (e : Entry K V δ ω) : e.Alike e := by
  induction e with
  | plain p => exact .plain (.refl p)
  | alone l => exact .alone (.refl l)
  | stacked l below ih => exact .stacked (.refl l) ih

theorem symm
    {e f : Entry K V δ ω}
    (h : e.Alike f) : f.Alike e := by
  induction h with
  | plain h => exact .plain h.symm
  | alone h => exact .alone h.symm
  | stacked h hBelow ih => exact .stacked h.symm ih

theorem trans
    {e f g : Entry K V δ ω}
    (h : e.Alike f)
    (h' : f.Alike g) : e.Alike g := by
  induction h generalizing g with
  | plain h =>
      cases h' with
      | plain h' => exact .plain (h.trans h')
  | alone h =>
      cases h' with
      | alone h' => exact .alone (h.trans h')
  | stacked h hBelow ih =>
      cases h' with
      | stacked h' hBelow' =>
          exact .stacked (h.trans h') (ih hBelow')

end Alike

/- Preparing an entry leaves it alike. -/
theorem alike_prepare (e : Entry K V δ ω) :
    e.prepare.1.Alike e := by
  induction e with
  | plain p => exact .plain p.alike_capture
  | alone l => exact .alone (l.alike_start _)
  | stacked l below ih =>
      exact .stacked (l.alike_start _) ih

/- So does the first pass of a commit. -/
theorem alike_ready (e : Entry K V δ ω) :
    e.ready.1.Alike e := by
  induction e with
  | plain p => exact .refl (.plain p)
  | alone l => exact .refl (.alone l)
  | stacked l below ih =>
      simp only [ready]
      by_cases hLow :
          (l.flags.changed && !below.isChanged) = true
      · simp only [hLow, if_true]
        exact .stacked (.refl l) below.alike_prepare
      · simp only [hLow]
        exact .stacked (.refl l) ih

end Entry

end OverlayCache

------------------------------------------------------------
-- Calls
------------------------------------------------------------

namespace OverlayCache

namespace Entry

namespace Alike

variable {K V δ ω : Type}
variable {e f : Entry K V δ ω}

/- The bottoms agree about the lifecycle of the key. -/
theorem is_eq
    (h : e.Alike f)
    {flag : Flag}
    (hNe : flag ≠ .changed) :
    e.is flag = f.is flag := by
  induction h with
  | plain h => exact h.flags flag hNe
  | alone h => exact h.flags flag hNe
  | stacked h hBelow ih => simpa [Entry.is, hNe] using ih

theorem ownFlags
    (h : e.Alike f) :
    e.ownFlags.SameLifecycle f.ownFlags := by
  cases h with
  | plain h => exact h.flags
  | alone h => exact h.flags
  | stacked h hBelow => exact h.flags

theorem withOwnFlags
    (h : e.Alike f)
    {a b : Flags}
    (hFlags : a.SameLifecycle b) :
    (e.withOwnFlags a).Alike (f.withOwnFlags b) := by
  cases h with
  | plain h => exact .plain ⟨h.value, hFlags⟩
  | alone h =>
      exact .alone
        ⟨h.value, h.pending, h.work, h.config, hFlags⟩
  | stacked h hBelow =>
      exact .stacked
        ⟨h.value, h.pending, h.work, h.config, hFlags⟩
        hBelow

theorem bottom
    (h : e.Alike f) :
    e.bottom.Alike f.bottom := by
  induction h with
  | plain h => exact .plain h
  | alone h => exact .alone h
  | stacked h hBelow ih => exact ih

/- The bottoms may be changed alike. -/
theorem mapBottom
    (h : e.Alike f)
    {change change' : Entry K V δ ω → Entry K V δ ω}
    (hChange :
      ∀ b b' : Entry K V δ ω,
        b.Alike b' → (change b).Alike (change' b')) :
    (e.mapBottom change).Alike (f.mapBottom change') := by
  induction h with
  | plain h => exact hChange _ _ (.plain h)
  | alone h => exact hChange _ _ (.alone h)
  | stacked h hBelow ih => exact .stacked h ih

theorem undelete
    (h : e.Alike f)
    (on : Bool) :
    (e.undelete on).2.1.Alike (f.undelete on).2.1 := by
  have hSame :
      e.bottom.is .removed = f.bottom.is .removed :=
    h.bottom.is_eq (by decide)
  unfold Entry.undelete
  by_cases hRemoved : (f.bottom.is .removed && on) = true
  · simp only [hSame, hRemoved, if_true]
    apply h.mapBottom
    intro b b' hBottom
    apply hBottom.withOwnFlags
    exact
      (h.bottom.ownFlags.assign .removed false).assign
        .valid true
  · simp only [hSame, hRemoved]
    exact h

variable [Delta δ ω]

/- Either both take a delta or both refuse it. -/
theorem append
    (h : e.Alike f)
    (d : δ) :
    (e.append d).entry.Alike (f.append d).entry := by
  have hRemoved : e.is .removed = f.is .removed :=
    h.is_eq (by decide)
  have hValid : e.is .valid = f.is .valid :=
    h.is_eq (by decide)
  unfold Entry.append
  rw [hRemoved, hValid]
  cases h with
  | plain h => exact .plain h
  | alone h =>
      simp only [Entry.top?, h.config]
      split
      · exact .alone h
      · exact .alone (h.append _ _ d)
  | stacked h hBelow =>
      simp only [Entry.top?, h.config]
      split
      · exact .stacked h hBelow
      · exact .stacked (h.append _ _ d) hBelow

/- The entries stay alike until one of them rolls back. -/
theorem call
    (h : e.Alike f)
    {c : Call V δ}
    (hCall : c ≠ .rollback) :
    (e.call c).entry.Alike (f.call c).entry := by
  cases c with
  | append d => exact h.append d
  | setValue value =>
      cases h with
      | plain h => exact .plain ⟨rfl, h.flags⟩
      | alone h =>
          exact .alone
            ⟨rfl, h.pending, h.work, h.config, h.flags⟩
      | stacked h hBelow =>
          exact .stacked
            ⟨rfl, h.pending, h.work, h.config, h.flags⟩
            hBelow
  | mark m on =>
      exact h.withOwnFlags (h.ownFlags.assign m.flag on)
  | setLock on =>
      cases h with
      | plain h =>
          exact .plain
            ⟨h.value, h.flags.assign .lockPlaceholder on⟩
      | alone h => exact .alone h
      | stacked h hBelow => exact .stacked h hBelow
  | setVersion version =>
      cases h with
      | plain h => exact .plain ⟨h.value, h.flags⟩
      | alone h => exact .alone h
      | stacked h hBelow => exact .stacked h hBelow
  | configure config =>
      cases h with
      | plain h => exact .plain h
      | alone h =>
          exact .alone
            ⟨h.value, h.pending, h.work, rfl, h.flags⟩
      | stacked h hBelow =>
          exact .stacked
            ⟨h.value, h.pending, h.work, rfl, h.flags⟩
            hBelow
  | prepare =>
      exact
        (e.alike_prepare.trans h).trans
          f.alike_prepare.symm
  | rollback => exact absurd rfl hCall
  | undelete on => exact h.undelete on

end Alike

end Entry

end OverlayCache
