import OverlayCache.Config
import OverlayCache.Delta
import OverlayCache.Event
import OverlayCache.Flags

/-
  Layers, which collect the deltas of a transaction.

  A layer keeps the live value it was given, the deltas that
  are pending in the order of their arrival, and a working
  copy into which they are merged.  The live value does not
  change before the transaction ends.

  Key definitions include:
    * `Layer`
    * `Layer.start`
    * `Layer.append`
    * `Layer.reset`
    * `Layer.replay`
    * `Layer.discard`
-/

------------------------------------------------------------
-- Layers
------------------------------------------------------------

namespace OverlayCache

/- The state of one layer. -/
structure Layer (K V δ ω : Type) where
  key : K
  value : Option V
  snapshot : Option V := none
  pending : List δ := []
  work : ω
  flags : Flags := .untouched
  config : Config := {}

namespace Layer

variable {K V δ ω : Type}

/- A layer that no transaction has touched. -/
def fresh
    [Delta δ ω]
    (key : K)
    (value : Option V)
    (config : Config) : Layer K V δ ω where
  key := key
  value := value
  work := Delta.blank δ
  config := config

/-
  Note the first write of a transaction.  The live value is
  kept as a snapshot unless the key is being created.
-/
def start (l : Layer K V δ ω) (created : Bool) :
    Layer K V δ ω :=
  if l.flags.changed then
    l
  else
    { l with
      flags := l.flags.raise .changed
      snapshot :=
        if created then l.snapshot else l.value }

/- Take a delta into the transaction. -/
def append
    [Delta δ ω]
    (l : Layer K V δ ω)
    (created : Bool)
    (d : δ) : Layer K V δ ω :=
  let l := l.start created
  { l with
    work := Delta.merge d l.work
    pending := l.pending ++ [d] }

/- Forget the transaction but keep the live value. -/
def reset [Delta δ ω] (l : Layer K V δ ω) :
    Layer K V δ ω :=
  { l with
    snapshot := none
    pending := []
    work := Delta.blank δ
    flags := .untouched }

end Layer

end OverlayCache

------------------------------------------------------------
-- Ending A Transaction
------------------------------------------------------------

namespace OverlayCache

/- What is left after the deltas of a layer took effect. -/
structure Replayed (K V δ ω σ : Type) where
  layer : Layer K V δ ω
  store : σ
  events : List (Event K δ)

namespace Layer

variable {K V δ ω σ : Type} [Delta δ ω]

/-
  Replay the pending deltas into the live value.  A layer
  without a live value drops its deltas unreported.
-/
def replay
    [Holding V σ δ]
    (l : Layer K V δ ω)
    (store : σ) : Replayed K V δ ω σ :=
  match l.value with
  | none =>
      { layer := l.reset
        store := store
        events := [] }
  | some value =>
      let p := Holding.replay l.pending value store
      { layer := reset { l with value := some p.1 }
        store := p.2
        events :=
          if l.pending.isEmpty then
            []
          else
            [.replayed l.key l.pending.length] }

/-
  Drop the pending deltas and go back to the given value.  An
  unchanged layer has nothing to drop and stays as it is.
-/
def discard
    (l : Layer K V δ ω)
    (value : Option V) :
    Layer K V δ ω × List (Event K δ) :=
  if l.flags.changed then
    (reset { l with value := value },
      [.discarded l.key l.pending.length])
  else
    (l, [])

end Layer

end OverlayCache

------------------------------------------------------------
-- Fields Of Written Layers
------------------------------------------------------------

namespace OverlayCache

namespace Layer

variable {K V δ ω : Type}

@[simp] theorem key_start
    (l : Layer K V δ ω)
    (created : Bool) :
    (l.start created).key = l.key := by
  unfold start
  split <;> rfl

@[simp] theorem value_start
    (l : Layer K V δ ω)
    (created : Bool) :
    (l.start created).value = l.value := by
  unfold start
  split <;> rfl

@[simp] theorem pending_start
    (l : Layer K V δ ω)
    (created : Bool) :
    (l.start created).pending = l.pending := by
  unfold start
  split <;> rfl

@[simp] theorem work_start
    (l : Layer K V δ ω)
    (created : Bool) :
    (l.start created).work = l.work := by
  unfold start
  split <;> rfl

@[simp] theorem config_start
    (l : Layer K V δ ω)
    (created : Bool) :
    (l.start created).config = l.config := by
  unfold start
  split <;> rfl

/- Starting a transaction raises the changed flag only. -/
@[simp] theorem flags_start
    (l : Layer K V δ ω)
    (created : Bool) :
    (l.start created).flags = l.flags.raise .changed := by
  unfold start
  split
  · next hChanged =>
      exact
        (Flags.raise_of_has (f := .changed) hChanged).symm
  · rfl

variable [Delta δ ω]

@[simp] theorem key_append
    (l : Layer K V δ ω)
    (created : Bool)
    (d : δ) :
    (l.append created d).key = l.key :=
  l.key_start created

@[simp] theorem value_append
    (l : Layer K V δ ω)
    (created : Bool)
    (d : δ) :
    (l.append created d).value = l.value :=
  l.value_start created

@[simp] theorem pending_append
    (l : Layer K V δ ω)
    (created : Bool)
    (d : δ) :
    (l.append created d).pending = l.pending ++ [d] := by
  simp [append]

theorem length_pending_append
    (l : Layer K V δ ω)
    (created : Bool)
    (d : δ) :
    (l.append created d).pending.length =
      l.pending.length + 1 := by
  simp

@[simp] theorem work_append
    (l : Layer K V δ ω)
    (created : Bool)
    (d : δ) :
    (l.append created d).work = Delta.merge d l.work := by
  simp [append]

@[simp] theorem config_append
    (l : Layer K V δ ω)
    (created : Bool)
    (d : δ) :
    (l.append created d).config = l.config :=
  l.config_start created

@[simp] theorem flags_append
    (l : Layer K V δ ω)
    (created : Bool)
    (d : δ) :
    (l.append created d).flags =
      l.flags.raise .changed :=
  l.flags_start created

end Layer

end OverlayCache
