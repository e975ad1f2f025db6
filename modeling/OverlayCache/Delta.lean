/-
  Deltas, and the values that change through them.

  A delta is an ordered unit of change.  It can be folded
  into a working copy, which starts out blank, and it can be
  applied to an aggregate.  Deltas do not commute in general,
  so whoever collects them keeps their order.

  An entry holds its aggregate either by itself or through
  something that stands for it.  `Holding` covers both: it
  says how a held value changes together with the store that
  lies behind it.

  Key definitions include:
    * `Delta`
    * `Aggregate`
    * `Holding`
    * `Holding.replay`
-/

------------------------------------------------------------
-- Deltas And Aggregates
------------------------------------------------------------

namespace OverlayCache

/- Changes that fold into a working copy. -/
class Delta (δ : Type) (ω : outParam Type) where
  blank : ω
  merge : δ → ω → ω

namespace Delta

variable {δ ω : Type} [Delta δ ω]

/- Merge deltas in order. -/
def mergeAll (ds : List δ) (work : ω) : ω :=
  ds.foldl (fun w d => merge d w) work

end Delta

/-
  Aggregates that change through deltas.  `settle` tells the
  aggregate that its changes have become durable.
-/
class Aggregate (α : Type) (δ : outParam Type) where
  apply : δ → α → α
  settle : α → α

namespace Aggregate

variable {α δ : Type} [Aggregate α δ]

/- Apply deltas in order. -/
def applyAll (ds : List δ) (a : α) : α :=
  ds.foldl (fun b d => apply d b) a

end Aggregate

end OverlayCache

------------------------------------------------------------
-- Held Values
------------------------------------------------------------

namespace OverlayCache

/-
  Values as entries hold them, with the store `σ` in which
  their aggregates live.
-/
class Holding (V : Type) (σ δ : outParam Type) where
  apply : δ → V → σ → V × σ
  settle : V → σ → V × σ

/- An aggregate held by itself has nothing behind it. -/
instance (priority := low) Aggregate.holding
    {α δ : Type} [Aggregate α δ] :
    Holding α Unit δ where
  apply d a s := (Aggregate.apply d a, s)
  settle a s := (Aggregate.settle a, s)

namespace Holding

variable {V σ δ : Type} [Holding V σ δ]

/- Apply deltas in order to a held value. -/
def applyAll (ds : List δ) (v : V) (s : σ) : V × σ :=
  ds.foldl (fun p d => apply d p.1 p.2) (v, s)

/-
  Replay deltas into a held value and make them durable.
  Without deltas the value is left alone.
-/
def replay (ds : List δ) (v : V) (s : σ) : V × σ :=
  if ds.isEmpty then
    (v, s)
  else
    let p := applyAll ds v s
    settle p.1 p.2

end Holding

end OverlayCache
