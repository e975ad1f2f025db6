import OverlayCache.Delta
import OverlayCache.Text.Outline

/-
  Counters that change by arithmetic.

  A counter holds a 64-bit total, on which arithmetic wraps,
  and counts how often its changes became durable.

  Key definitions include:
    * `Counter`
    * `CounterDelta`
    * `CounterDelta.act`
-/

namespace OverlayCache

/- A running total and the number of its commits. -/
structure Counter where
  total : Int64
  commits : UInt64 := 0
deriving DecidableEq, Repr

/- A change of the total. -/
inductive CounterDelta where
| add (n : Int64)
| mul (n : Int64)
| set (n : Int64)
deriving DecidableEq, Repr

namespace CounterDelta

/- The arithmetic of a change. -/
def act : CounterDelta → Int64 → Int64
| .add n, total => total + n
| .mul n, total => total * n
| .set n, _ => n

instance : Outlined CounterDelta where
  outline
  | .add n => .wrapper "Add" (outline n)
  | .mul n => .wrapper "Mul" (outline n)
  | .set n => .wrapper "Set" (outline n)

/- The working copy of a counter is a bare total. -/
instance : Delta CounterDelta Int64 where
  blank := 0
  merge := act

end CounterDelta

namespace Counter

instance : Inhabited Counter := ⟨{ total := 0 }⟩

instance : Aggregate Counter CounterDelta where
  apply d c := { c with total := d.act c.total }
  settle c := { c with commits := c.commits + 1 }

instance : Outlined Counter where
  outline c :=
    .record "Counter"
      [("n", outline c.total),
        ("commits", outline c.commits)]

end Counter

end OverlayCache
