import OverlayCache.Proofs.Commit.Publication

/-
  Entries without the marks on their wrapping layers.

  A layer over another entry has flags of its own that clients
  may mark.  To see that only the changed flag among them is
  ever read, the others are put back to what they are in an
  untouched layer.  Whatever is done to the entry then, its
  outcome is the same, but for these marks.

  Key definitions include:
    * `Flags.unmarked`
    * `Entry.unmarked`
    * `Entry.levels`

  The main statements are:
    * `Entry.is_of_mem_levels`
    * `Entry.undelete_eq`
    * `Entry.unmarked_call`
    * `Entry.commit_unmarked`
-/

------------------------------------------------------------
-- Unmarked Layers
------------------------------------------------------------

namespace OverlayCache

namespace Flags

/- The flags without what marks can move. -/
def unmarked (flags : Flags) : Flags :=
  { untouched with
    changed := flags.changed
    lockPlaceholder := flags.lockPlaceholder }

/- A mark moves none of the flags that are left. -/
theorem unmarked_assign
    (flags : Flags)
    (m : Mark)
    (on : Bool) :
    (flags.assign m.flag on).unmarked = flags.unmarked := by
  cases m <;> rfl

end Flags

namespace Layer

variable {K V δ ω : Type}

/- The layer without its marks. -/
def unmarked (l : Layer K V δ ω) : Layer K V δ ω :=
  { l with flags := l.flags.unmarked }

theorem start_unmarked
    (l : Layer K V δ ω)
    (created : Bool) :
    l.unmarked.start created = (l.start created).unmarked := by
  by_cases hChanged : l.flags.changed = true
  · simp [start, unmarked, Flags.unmarked, hChanged]
  · simp only [start, unmarked, Flags.unmarked, hChanged]
    rfl

variable [Delta δ ω]

theorem append_unmarked
    (l : Layer K V δ ω)
    (created : Bool)
    (d : δ) :
    l.unmarked.append created d =
      (l.append created d).unmarked := by
  simp only [append, start_unmarked]
  rfl

/- The end of a transaction takes marks away anyhow. -/
theorem replay_unmarked
    {σ : Type} [Holding V σ δ]
    (l : Layer K V δ ω)
    (s : σ) :
    l.unmarked.replay s =
      { l.replay s with layer := (l.replay s).layer.unmarked } := by
  cases l with
  | mk key value snapshot pending work flags config =>
      cases value with
      | none => rfl
      | some v => rfl

theorem discard_unmarked
    (l : Layer K V δ ω)
    (value : Option V) :
    l.unmarked.discard value =
      ((l.discard value).1.unmarked, (l.discard value).2) := by
  by_cases hChanged : l.flags.changed = true
  · simp only [discard, unmarked, Flags.unmarked, hChanged]
    rfl
  · simp [discard, unmarked, Flags.unmarked, hChanged]

end Layer

end OverlayCache

------------------------------------------------------------
-- Unmarked Entries
------------------------------------------------------------

namespace OverlayCache

variable {γ K V δ ω σ : Type}

namespace Entry

/-
  The entry without the marks on its wrapping layers.  Those
  at the bottom stay.
-/
def unmarked : Entry K V δ ω → Entry K V δ ω
| .plain p => .plain p
| .alone l => .alone l
| .stacked l below => .stacked l.unmarked below.unmarked

theorem unmarked_unmarked (e : Entry K V δ ω) :
    e.unmarked.unmarked = e.unmarked := by
  induction e with
  | plain p => rfl
  | alone l => rfl
  | stacked l below ih =>
      simp only [unmarked, ih]
      rfl

/- Whether the entry is a layer over another entry. -/
def wraps : Entry K V δ ω → Bool
| .stacked _ _ => true
| _ => false

@[simp] theorem wraps_unmarked (e : Entry K V δ ω) :
    e.unmarked.wraps = e.wraps := by
  cases e with
  | plain p => rfl
  | alone l => rfl
  | stacked l below => rfl

/- Plain entries have no marks to lose. -/
theorem eq_plain_of_unmarked
    {e f : Entry K V δ ω}
    (hSame : e.unmarked = f.unmarked)
    {p : Plain K V}
    (hPlain : e = .plain p) :
    f = .plain p := by
  subst hPlain
  cases f with
  | plain q => exact hSame.symm
  | alone l => cases hSame
  | stacked l below => cases hSame

/- Every flag of an entry is read past the marks. -/
@[simp] theorem is_unmarked
    (e : Entry K V δ ω)
    (flag : Flag) :
    e.unmarked.is flag = e.is flag := by
  induction e with
  | plain p => rfl
  | alone l => rfl
  | stacked l below ih =>
      by_cases hChanged : flag = .changed
      · subst hChanged
        rfl
      · simp [unmarked, is, hChanged, ih]

@[simp] theorem isChanged_unmarked (e : Entry K V δ ω) :
    e.unmarked.isChanged = e.isChanged := by
  cases e with
  | plain p => rfl
  | alone l => rfl
  | stacked l below => rfl

@[simp] theorem bottom_unmarked (e : Entry K V δ ω) :
    e.unmarked.bottom = e.bottom := by
  induction e with
  | plain p => rfl
  | alone l => rfl
  | stacked l below ih => exact ih

@[simp] theorem value_unmarked (e : Entry K V δ ω) :
    e.unmarked.value = e.value := by
  cases e with
  | plain p => rfl
  | alone l => rfl
  | stacked l below => rfl

end Entry

/- What is left after a call, without marks. -/
def Entry.Turn.unmarked
    (t : Entry.Turn K V δ ω) : Entry.Turn K V δ ω :=
  { t with entry := t.entry.unmarked }

/- What is left after a commit, without marks. -/
def Outcome.unmarked
    (o : Outcome γ K V δ ω σ) : Outcome γ K V δ ω σ :=
  { o with entry := o.entry.unmarked }

end OverlayCache

------------------------------------------------------------
-- The Lifecycle At The Bottom
------------------------------------------------------------

namespace OverlayCache

namespace Entry

variable {K V δ ω : Type}

/- The levels of an entry, each with what lies below it. -/
def levels : Entry K V δ ω → List (Entry K V δ ω)
| .plain p => [.plain p]
| .alone l => [.alone l]
| .stacked l below => .stacked l below :: below.levels

/- Every level says of the key what the bottom says. -/
theorem is_of_mem_levels
    {e f : Entry K V δ ω}
    (hMem : f ∈ e.levels)
    {flag : Flag}
    (hNe : flag ≠ .changed) :
    f.is flag = e.bottom.is flag := by
  induction e with
  | plain p =>
      rw [levels, List.mem_singleton] at hMem
      rw [hMem]
      rfl
  | alone l =>
      rw [levels, List.mem_singleton] at hMem
      rw [hMem]
      rfl
  | stacked l below ih =>
      rw [levels, List.mem_cons] at hMem
      rcases hMem with rfl | hBelow
      · exact (is_bottom _ hNe).symm
      · exact ih hBelow

theorem mapBottom_bottom (e : Entry K V δ ω) :
    e.mapBottom (fun _ => e.bottom) = e := by
  induction e with
  | plain p => rfl
  | alone l => rfl
  | stacked l below ih =>
      simp only [mapBottom, bottom, ih]

theorem bottom_bottom (e : Entry K V δ ω) :
    e.bottom.bottom = e.bottom := by
  induction e with
  | plain p => rfl
  | alone l => rfl
  | stacked l below ih => exact ih

/- What is done to the bottom may be done to it by itself. -/
theorem mapBottom_eq
    (f : Entry K V δ ω → Entry K V δ ω)
    (e : Entry K V δ ω) :
    e.mapBottom f =
      e.mapBottom (fun _ => e.bottom.mapBottom f) := by
  induction e with
  | plain p => rfl
  | alone l => rfl
  | stacked l below ih => exact congrArg (stacked l) ih

/- To take a removal back on top is to do so at the bottom. -/
theorem undelete_eq
    (e : Entry K V δ ω)
    (on : Bool) :
    e.undelete on =
      let u := e.bottom.undelete on
      (u.1, e.mapBottom (fun _ => u.2.1), u.2.2) := by
  simp only [undelete, bottom_bottom]
  split
  · simp only
    rw [mapBottom_eq]
  · simp only [mapBottom_bottom]

end Entry

end OverlayCache

------------------------------------------------------------
-- Calls And Commits Past Marks
------------------------------------------------------------

namespace OverlayCache

namespace Entry

variable {γ K V δ ω σ : Type}

theorem prepare_unmarked (e : Entry K V δ ω) :
    e.unmarked.prepare =
      (e.prepare.1.unmarked, e.prepare.2) := by
  induction e with
  | plain p => rfl
  | alone l => rfl
  | stacked l below ih =>
      simp only [unmarked, prepare, ih, is_unmarked,
        Layer.start_unmarked]
      rfl

theorem mapBottom_unmarked
    (e : Entry K V δ ω)
    (flags : Flags) :
    e.unmarked.mapBottom (fun b => b.withOwnFlags flags) =
      (e.mapBottom
        (fun b => b.withOwnFlags flags)).unmarked := by
  induction e with
  | plain p => rfl
  | alone l => rfl
  | stacked l below ih => simp only [unmarked, mapBottom, ih]

theorem undelete_unmarked
    (e : Entry K V δ ω)
    (on : Bool) :
    e.unmarked.undelete on =
      let u := e.undelete on
      (u.1, u.2.1.unmarked, u.2.2) := by
  simp only [undelete, bottom_unmarked, mapBottom_unmarked]
  split
  · rfl
  · rfl

theorem ready_unmarked (e : Entry K V δ ω) :
    e.unmarked.ready = (e.ready.1.unmarked, e.ready.2) := by
  induction e with
  | plain p => rfl
  | alone l => rfl
  | stacked l below ih =>
      have hChanged :
          l.unmarked.flags.changed = l.flags.changed := rfl
      simp only [unmarked, ready, hChanged, isChanged_unmarked,
        prepare_unmarked, ih]
      split
      · rfl
      · rfl

variable [Delta δ ω]

theorem rollback_unmarked (e : Entry K V δ ω) :
    e.unmarked.rollback =
      (e.rollback.1.unmarked, e.rollback.2) := by
  induction e with
  | plain p => rfl
  | alone l => rfl
  | stacked l below ih =>
      simp only [unmarked, rollback, ih, value_unmarked,
        Layer.discard_unmarked]

theorem append_unmarked
    (e : Entry K V δ ω)
    (d : δ) :
    e.unmarked.append d = (e.append d).unmarked := by
  cases e with
  | plain p => rfl
  | alone l =>
      simp only [unmarked, append, top?,
        apply_ite Turn.unmarked]
      rfl
  | stacked l below =>
      have hIs (flag : Flag) :
          (stacked l.unmarked below.unmarked).is flag =
            (stacked l below).is flag :=
        (stacked l below).is_unmarked flag
      simp only [unmarked, append, top?, hIs,
        Layer.append_unmarked, apply_ite Turn.unmarked]
      rfl

/- Neither of two marks is left. -/
omit [Delta δ ω] in
theorem unmarked_mark
    (e : Entry K V δ ω)
    (m : Mark)
    (on : Bool) :
    (e.unmarked.withOwnFlags
        (e.unmarked.ownFlags.assign m.flag on)).unmarked =
      (e.withOwnFlags
        (e.ownFlags.assign m.flag on)).unmarked := by
  cases e with
  | plain p => rfl
  | alone l => rfl
  | stacked l below =>
      simp only [unmarked, ownFlags, withOwnFlags,
        Layer.unmarked, Flags.unmarked_assign,
        unmarked_unmarked]
      rfl

/- A mark on a wrapping layer is all that a call makes of it. -/
theorem unmarked_call_mark
    {e : Entry K V δ ω}
    (hWraps : e.wraps = true)
    (m : Mark)
    (on : Bool) :
    (e.call (.mark m on)).entry.unmarked = e.unmarked := by
  cases e with
  | plain p => cases hWraps
  | alone l => cases hWraps
  | stacked l below =>
      simp only [call, unmarked, ownFlags, withOwnFlags,
        Layer.unmarked, Flags.unmarked_assign]

/- A call finds and does the same without the marks. -/
theorem unmarked_call
    (e : Entry K V δ ω)
    (c : Call V δ) :
    (e.unmarked.call c).unmarked = (e.call c).unmarked := by
  cases c with
  | append d =>
      simp only [call, append_unmarked, Turn.unmarked,
        unmarked_unmarked]
  | setValue value =>
      cases e with
      | plain p => rfl
      | alone l => rfl
      | stacked l below =>
          simp only [unmarked, call, withValue, Turn.unmarked,
            unmarked_unmarked]
          rfl
  | mark m on =>
      simp only [call, Turn.unmarked, unmarked_mark]
  | setLock on =>
      cases e with
      | plain p => rfl
      | alone l => rfl
      | stacked l below =>
          simp only [unmarked, call, setLock, Turn.unmarked,
            unmarked_unmarked]
          rfl
  | setVersion version =>
      cases e with
      | plain p => rfl
      | alone l => rfl
      | stacked l below =>
          simp only [unmarked, call, withVersion, Turn.unmarked,
            unmarked_unmarked]
          rfl
  | configure config =>
      cases e with
      | plain p => rfl
      | alone l => rfl
      | stacked l below =>
          simp only [unmarked, call, configure, top?, withTop,
            Turn.unmarked, unmarked_unmarked]
          rfl
  | prepare =>
      simp only [call, prepare_unmarked, Turn.unmarked,
        unmarked_unmarked]
  | rollback =>
      simp only [call, rollback_unmarked, Turn.unmarked,
        unmarked_unmarked]
  | undelete on =>
      simp only [call, undelete_unmarked, Turn.unmarked,
        unmarked_unmarked]

variable [Repository γ K V] [Holding V σ δ]

theorem settle_unmarked
    (e : Entry K V δ ω)
    (version : Option Version)
    (c : γ)
    (s : σ) :
    e.unmarked.settle version c s =
      (e.settle version c s).unmarked := by
  induction e with
  | plain p => rfl
  | alone l => rfl
  | stacked l below ih =>
      simp only [unmarked, settle, ih]
      simp only [Outcome.unmarked]
      split
      · rfl
      · simp only [Layer.replay_unmarked]
        rfl

/- So does a commit. -/
theorem commit_unmarked
    (e : Entry K V δ ω)
    (c : γ)
    (s : σ)
    (version : Option Version) :
    e.unmarked.commit c s version =
      (e.commit c s version).unmarked := by
  simp only [commit, ready_unmarked, settle_unmarked]
  rfl

end Entry

end OverlayCache
