import OverlayCache.Entry.Basic

/-
  Commits of entries.

  A commit has two passes.  The first goes down and prepares
  whatever lies below a changed layer and is not changed
  itself, so that the bottom of the stack publishes.  The
  second comes up: the bottom publishes its value, then each
  layer replays its pending deltas.  When the repository
  refuses, the second pass stops at the bottom and no delta
  is replayed.

  Key definitions include:
    * `Entry.ready`
    * `Entry.settle`
    * `Entry.commit`
-/

namespace OverlayCache

/- What is left after the commit of an entry. -/
structure Outcome (γ K V δ ω σ : Type) where
  entry : Entry K V δ ω
  container : γ
  store : σ
  events : List (Event K δ)
  result : Except Refusal Unit

namespace Entry

variable {γ K V δ ω σ : Type}

/- Prepare what lies unchanged below a changed layer. -/
def ready :
    Entry K V δ ω → Entry K V δ ω × List (Event K δ)
| .plain p => (.plain p, [])
| .alone l => (.alone l, [])
| .stacked l below =>
    let (below', events) :=
      if l.flags.changed && !below.isChanged then
        below.prepare
      else
        below.ready
    (.stacked l below', events)

variable [Repository γ K V]
variable [Delta δ ω] [Holding V σ δ]

/- Publish at the bottom, then replay layer by layer. -/
def settle
    (version : Option Version)
    (c : γ)
    (store : σ) :
    Entry K V δ ω → Outcome γ K V δ ω σ
| .plain p =>
    let r := p.commit c version
    { entry := .plain r.entry
      container := r.container
      store := store
      events := r.events
      result := r.result }
| .alone l =>
    let r := l.replay store
    { entry := .alone r.layer
      container := c
      store := r.store
      events := r.events
      result := .ok () }
| .stacked l below =>
    let b := below.settle version c store
    match b.result with
    | .error _ => { b with entry := .stacked l b.entry }
    | .ok () =>
        let r := l.replay b.store
        { b with
          entry := .stacked r.layer b.entry
          store := r.store
          events := b.events ++ r.events }

/- Make the transaction of an entry durable. -/
def commit
    (e : Entry K V δ ω)
    (c : γ)
    (store : σ)
    (version : Option Version) : Outcome γ K V δ ω σ :=
  let (e', events) := e.ready
  let o := e'.settle version c store
  { o with events := events ++ o.events }

end Entry

end OverlayCache

------------------------------------------------------------
-- Layers Over Plain Entries
------------------------------------------------------------

namespace OverlayCache

namespace Entry

variable {γ K V δ ω σ : Type}

/-
  Over a plain entry, the commit of a layer that was written
  to prepares that entry.
-/
theorem ready_stacked_plain
    (l : Layer K V δ ω)
    (p : Plain K V) :
    (Entry.stacked l (.plain p)).ready.1 =
      .stacked l
        (.plain (if l.flags.changed then p.capture else p)) := by
  by_cases hLayer : l.flags.changed = true
  · by_cases hPlain : p.flags.changed = true
    · simp [ready, isChanged, ownFlags, hLayer, hPlain,
        Plain.capture]
    · simp [ready, isChanged, ownFlags, prepare, hLayer,
        hPlain]
  · simp [ready, hLayer]

variable [Repository γ K V]
variable [Delta δ ω] [Holding V σ δ]

/-
  The commit of a layer over a plain entry is refused with the
  plain entry, before the layer replays anything, or both take
  effect.
-/
theorem commit_stacked_plain
    (l : Layer K V δ ω)
    (p : Plain K V)
    (c : γ)
    (s : σ)
    (version : Option Version) :
    let q := if l.flags.changed then p.capture else p
    let r := q.commit (δ := δ) c version
    let o := (Entry.stacked l (.plain p)).commit c s version
    (∃ refusal : Refusal,
      o.result = .error refusal ∧
        o.store = s ∧
        o.entry = .stacked l (.plain r.entry)) ∨
      (o.result = .ok () ∧
        o.store = (l.replay s).store ∧
        o.entry =
          .stacked (l.replay s).layer (.plain r.entry)) := by
  intro q r o
  simp only [o, commit, ready_stacked_plain, settle]
  cases hResult : (q.commit (δ := δ) c version).result with
  | error refusal => exact Or.inl ⟨refusal, rfl, rfl, rfl⟩
  | ok u => exact Or.inr ⟨rfl, rfl, rfl⟩

end Entry

end OverlayCache
