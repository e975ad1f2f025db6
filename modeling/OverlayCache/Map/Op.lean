import Std.Data.ExtTreeMap
import OverlayCache.Text.Outline

/-
  Operations on ordered maps, and the deltas that carry them.

  Key definitions include:
    * `MapOp`
    * `MapOp.act`
    * `MapDelta`
-/

------------------------------------------------------------
-- Operations
------------------------------------------------------------

namespace OverlayCache

/- One mutation of a map. -/
inductive MapOp (κ ν : Type) where
| put (key : κ) (value : ν)
| remove (key : κ)
| clear
deriving DecidableEq, Repr

namespace MapOp

variable {κ ν : Type}

/- Carry out an operation on the mappings. -/
def act
    [Ord κ] [Std.TransOrd κ]
    (m : Std.ExtTreeMap κ ν) :
    MapOp κ ν → Std.ExtTreeMap κ ν
| .put key value => m.insert key value
| .remove key => m.erase key
| .clear => ∅

instance [Outlined κ] [Outlined ν] :
    Outlined (MapOp κ ν) where
  outline
  | .put key value =>
      .record "Put"
        [("key", outline key), ("value", outline value)]
  | .remove key => .record "Remove" [("key", outline key)]
  | .clear => .leaf "Clear"

end MapOp

end OverlayCache

------------------------------------------------------------
-- Deltas
------------------------------------------------------------

namespace OverlayCache

/- A list of map operations in replay order. -/
structure MapDelta (κ ν : Type) where
  ops : List (MapOp κ ν)
deriving DecidableEq, Repr

namespace MapDelta

variable {κ ν : Type}

/- The delta without operations. -/
def empty : MapDelta κ ν := ⟨[]⟩

/- The delta with one operation. -/
def single (op : MapOp κ ν) : MapDelta κ ν := ⟨[op]⟩

/- Add an operation at the end. -/
def push (d : MapDelta κ ν) (op : MapOp κ ν) :
    MapDelta κ ν :=
  ⟨d.ops ++ [op]⟩

/- The number of operations. -/
def length (d : MapDelta κ ν) : Nat :=
  d.ops.length

/- Whether there are no operations. -/
def isEmpty (d : MapDelta κ ν) : Bool :=
  d.ops.isEmpty

instance [Outlined κ] [Outlined ν] :
    Outlined (MapDelta κ ν) where
  outline d :=
    .record "AtomicMapDelta"
      [("operations", outline d.ops)]

end MapDelta

end OverlayCache
