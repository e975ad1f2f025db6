import OverlayCache.Entry.Commit

/-
  What held values are told during a commit.

  A commit tells the values that the layers hold to apply
  deltas, and that deltas have become durable.  To see what it
  tells them, the same commit is run with a holding that makes
  a note each time.  The notes lie beside the store, and the
  commit cannot tell the difference.

  Key definitions include:
    * `Told`
    * `Holding.noted`
    * `Entry.notes`

  The main statements are:
    * `Entry.commit_keeps`
    * `Entry.commit_noted`
    * `Entry.notes_keep`
-/

------------------------------------------------------------
-- What A Commit Does To A Store
------------------------------------------------------------

namespace OverlayCache

namespace Entry

variable {γ K V δ ω σ : Type}
variable [Repository γ K V] [Delta δ ω] [Holding V σ δ]
variable {P : σ → Prop}

/- Committed levels keep whatever every replay keeps. -/
theorem settle_keeps
    (hReplay :
      ∀ (ds : List δ) (v : V) (s : σ),
        P s → P (Holding.replay ds v s).2)
    {s : σ}
    (hStart : P s)
    (e : Entry K V δ ω)
    (c : γ)
    (version : Option Version) :
    P (e.settle version c s).store := by
  have hLayer :
      ∀ (l : Layer K V δ ω) (s : σ),
        P s → P (l.replay s).store := by
    intro l s hBefore
    unfold Layer.replay
    cases l.value with
    | none => exact hBefore
    | some v => exact hReplay l.pending v s hBefore
  induction e with
  | plain p => exact hStart
  | alone l => exact hLayer l s hStart
  | stacked l below ih =>
      simp only [settle]
      cases (below.settle version c s).result with
      | error refusal => exact ih
      | ok u => exact hLayer l _ ih

/- So do commits, whether they are refused or accepted. -/
theorem commit_keeps
    (hReplay :
      ∀ (ds : List δ) (v : V) (s : σ),
        P s → P (Holding.replay ds v s).2)
    {s : σ}
    (hStart : P s)
    (e : Entry K V δ ω)
    (c : γ)
    (version : Option Version) :
    P (e.commit c s version).store :=
  settle_keeps hReplay hStart e.ready.1 c version

end Entry

end OverlayCache

------------------------------------------------------------
-- Notes
------------------------------------------------------------

namespace OverlayCache

/- What an entry tells a value that it holds. -/
inductive Told (δ : Type) where
| apply (delta : δ)
| settle

namespace Holding

variable {V σ δ : Type}

/-
  Values are held as before, and a note is made beside the
  store of what each of them is told.
-/
@[reducible] def noted
    (held : Holding V σ δ) :
    Holding V (σ × List (V × Told δ)) δ where
  apply d v s :=
    let r := held.apply d v s.1
    (r.1, r.2, s.2 ++ [(v, .apply d)])
  settle v s :=
    let r := held.settle v s.1
    (r.1, r.2, s.2 ++ [(v, .settle)])

end Holding

/- What a replay leaves, but for the notes. -/
def Replayed.unnoted
    {K V δ ω σ τ : Type}
    (r : Replayed K V δ ω (σ × τ)) :
    Replayed K V δ ω σ :=
  { r with store := r.store.1 }

/- What a commit leaves, but for the notes. -/
def Outcome.unnoted
    {γ K V δ ω σ τ : Type}
    (o : Outcome γ K V δ ω (σ × τ)) :
    Outcome γ K V δ ω σ :=
  { o with store := o.store.1 }

namespace Entry

variable {γ K V δ ω σ : Type}
variable [Repository γ K V] [Delta δ ω]

/- Commit an entry and take notes. -/
def commitNoted
    [held : Holding V σ δ]
    (e : Entry K V δ ω)
    (c : γ)
    (s : σ)
    (version : Option Version) :
    Outcome γ K V δ ω (σ × List (V × Told δ)) :=
  letI := held.noted
  e.commit c (s, ([] : List (V × Told δ))) version

/- What a commit tells the values, in order. -/
def notes
    [Holding V σ δ]
    (e : Entry K V δ ω)
    (c : γ)
    (s : σ)
    (version : Option Version) : List (V × Told δ) :=
  (e.commitNoted c s version).store.2

end Entry

end OverlayCache

------------------------------------------------------------
-- Commits With Notes
------------------------------------------------------------

namespace OverlayCache

variable {γ K V δ ω σ : Type}

namespace Holding

variable (held : Holding V σ δ)

theorem applyAll_noted
    (ds : List δ)
    (v : V)
    (s : σ × List (V × Told δ)) :
    let r := held.noted.applyAll ds v s
    (r.1, r.2.1) = held.applyAll ds v s.1 := by
  induction ds generalizing v s with
  | nil => rfl
  | cons d ds ih =>
      exact ih (held.noted.apply d v s).1
        (held.noted.apply d v s).2

theorem replay_noted
    (ds : List δ)
    (v : V)
    (s : σ × List (V × Told δ)) :
    let r := held.noted.replay ds v s
    (r.1, r.2.1) = held.replay ds v s.1 := by
  unfold replay
  by_cases hNil : ds.isEmpty
  · simp [hNil]
  · simp only [hNil]
    rw [← held.applyAll_noted ds v s]
    rfl

end Holding

variable [Delta δ ω] [held : Holding V σ δ]

/- A layer replays alike whether or not notes are taken. -/
theorem Layer.replay_noted
    (l : Layer K V δ ω)
    (s : σ × List (V × Told δ)) :
    (@Layer.replay _ _ _ _ _ _ held.noted l s).unnoted =
      l.replay s.1 := by
  unfold replay
  cases l.value with
  | none => rfl
  | some v =>
      have hSame := held.replay_noted l.pending v s
      simp only [← hSame]
      rfl

namespace Entry

variable [Repository γ K V]

/- So do the levels of a stack. -/
theorem settle_noted
    (e : Entry K V δ ω)
    (c : γ)
    (s : σ × List (V × Told δ))
    (version : Option Version) :
    (@Entry.settle _ _ _ _ _ _ _ _ held.noted version c s
        e).unnoted =
      e.settle version c s.1 := by
  induction e with
  | plain p => rfl
  | alone l =>
      simp only [settle, ← l.replay_noted s]
      rfl
  | stacked l below ih =>
      simp only [settle, ← ih]
      simp only [Outcome.unnoted]
      split
      · rfl
      · simp only [← l.replay_noted]
        rfl

/-
  Taking notes changes nothing about a commit.  It ends in the
  same entry, container and store, with the same result.
-/
theorem commit_noted
    (e : Entry K V δ ω)
    (c : γ)
    (s : σ)
    (version : Option Version) :
    (e.commitNoted c s version).unnoted =
      e.commit c s version := by
  have hSame := e.ready.1.settle_noted c (s, []) version
  exact
    congrArg
      (fun o : Outcome γ K V δ ω σ =>
        { o with events := e.ready.2 ++ o.events })
      hSame

/-
  What every replay keeps of a store and of the notes so far
  holds of the store that a commit leaves and of its notes.
-/
theorem notes_keep
    {P : σ × List (V × Told δ) → Prop}
    (hReplay :
      ∀ (ds : List δ) (v : V) (s : σ × List (V × Told δ)),
        P s → P (held.noted.replay ds v s).2)
    {s : σ}
    (hStart : P (s, []))
    (e : Entry K V δ ω)
    (c : γ)
    (version : Option Version) :
    P ((e.commit c s version).store,
      e.notes c s version) := by
  rw [← e.commit_noted c s version]
  let _ := held.noted
  exact e.commit_keeps hReplay hStart c version

end Entry

end OverlayCache
