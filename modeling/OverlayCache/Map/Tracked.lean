import OverlayCache.Delta
import OverlayCache.Map.Op

/-
  Ordered maps that record what is done to them.

  Direct mutations are recorded in a change log, even those
  that change no mapping.  Deltas are replayed without being
  recorded, so a map that only receives changes has none of
  its own to report.

  Key definitions include:
    * `TrackedMap`
    * `TrackedMap.replay`
    * `TrackedMap.perform`
    * `TrackedMap.drain`
    * `TrackedMap.foldDeltas`
-/

------------------------------------------------------------
-- Tracked Maps
------------------------------------------------------------

namespace OverlayCache

/- Mappings in key order and the changes recorded so far. -/
structure TrackedMap (κ ν : Type) [Ord κ] where
  entries : Std.ExtTreeMap κ ν := ∅
  changes : List (MapOp κ ν) := []

namespace TrackedMap

variable {κ ν : Type} [Ord κ]

/- No mappings and no changes. -/
def empty : TrackedMap κ ν := {}

instance : Inhabited (TrackedMap κ ν) := ⟨empty⟩

/- Whether changes were recorded and are still kept. -/
def isDirty (m : TrackedMap κ ν) : Bool :=
  !m.changes.isEmpty

/- Forget the recorded changes. -/
def settle (m : TrackedMap κ ν) : TrackedMap κ ν :=
  { m with changes := [] }

/- Take the recorded changes out as a delta. -/
def drain (m : TrackedMap κ ν) :
    MapDelta κ ν × TrackedMap κ ν :=
  (⟨m.changes⟩, m.settle)

variable [Std.TransOrd κ]

/- Build a map from pairs, of which the last one wins. -/
def ofList (pairs : List (κ × ν)) : TrackedMap κ ν where
  entries :=
    pairs.foldl (fun m p => m.insert p.1 p.2) ∅

/- The value of a key. -/
def get? (m : TrackedMap κ ν) (key : κ) : Option ν :=
  m.entries[key]?

/- Whether a key is mapped. -/
def contains (m : TrackedMap κ ν) (key : κ) : Bool :=
  m.entries.contains key

/- The number of mappings. -/
def size (m : TrackedMap κ ν) : Nat :=
  m.entries.size

/- Whether there are no mappings. -/
def isEmpty (m : TrackedMap κ ν) : Bool :=
  m.entries.isEmpty

/- The mappings in key order. -/
def toList (m : TrackedMap κ ν) : List (κ × ν) :=
  m.entries.toList

/- Whether two maps have the same mappings. -/
def agrees
    [BEq ν]
    (m n : TrackedMap κ ν) : Bool :=
  m.entries == n.entries

instance [Outlined κ] [Outlined ν] :
    Outlined (TrackedMap κ ν) where
  outline m :=
    .record "AtomicMap"
      [("entries",
          .map
            (m.toList.map
              (fun p => (outline p.1, outline p.2)))),
        ("changes", outline m.changes)]

end TrackedMap

end OverlayCache

------------------------------------------------------------
-- Recorded And Replayed Changes
------------------------------------------------------------

namespace OverlayCache

namespace TrackedMap

variable {κ ν : Type} [Ord κ] [Std.TransOrd κ]

/- Carry out an operation without recording it. -/
def replay (m : TrackedMap κ ν) (op : MapOp κ ν) :
    TrackedMap κ ν :=
  { m with entries := op.act m.entries }

/- Carry out an operation and record it. -/
def record (m : TrackedMap κ ν) (op : MapOp κ ν) :
    TrackedMap κ ν where
  entries := op.act m.entries
  changes := m.changes ++ [op]

/- Map a key, giving back the value it had. -/
def put (m : TrackedMap κ ν) (key : κ) (value : ν) :
    Option ν × TrackedMap κ ν :=
  (m.get? key, m.record (.put key value))

/- Unmap a key, giving back the value it had. -/
def remove (m : TrackedMap κ ν) (key : κ) :
    Option ν × TrackedMap κ ν :=
  (m.get? key, m.record (.remove key))

/- Unmap every key. -/
def clear (m : TrackedMap κ ν) : TrackedMap κ ν :=
  m.record .clear

/- Carry out a direct mutation that is given as data. -/
def perform (m : TrackedMap κ ν) :
    MapOp κ ν → Option ν × TrackedMap κ ν
| .put key value => m.put key value
| .remove key => m.remove key
| .clear => (none, m.clear)

/- Replay the operations of a delta in order. -/
def replayDelta (d : MapDelta κ ν) (m : TrackedMap κ ν) :
    TrackedMap κ ν :=
  d.ops.foldl replay m

instance : Delta (MapDelta κ ν) (TrackedMap κ ν) where
  blank := empty
  merge := replayDelta

instance : Aggregate (TrackedMap κ ν) (MapDelta κ ν) where
  apply := replayDelta
  settle := settle

/- Merge deltas in order into a map. -/
def foldDeltas
    (m : TrackedMap κ ν)
    (ds : List (MapDelta κ ν)) : TrackedMap κ ν :=
  Delta.mergeAll ds m

end TrackedMap

end OverlayCache

------------------------------------------------------------
-- Calls
------------------------------------------------------------

namespace OverlayCache

namespace TrackedMap

/- One thing that clients do to a map. -/
inductive Call (κ ν : Type) where
| perform (op : MapOp κ ν)
| apply (delta : MapDelta κ ν)
| drain
| settle

/- What the caller is told. -/
inductive Reply (κ ν : Type) where
| done
| previous (value : Option ν)
| drained (delta : MapDelta κ ν)

variable {κ ν : Type} [Ord κ] [Std.TransOrd κ]

/- Carry out a call. -/
def call (m : TrackedMap κ ν) :
    Call κ ν → Reply κ ν × TrackedMap κ ν
| .perform op =>
    let (value, m') := m.perform op
    (.previous value, m')
| .apply delta => (.done, replayDelta delta m)
| .drain =>
    let (delta, m') := m.drain
    (.drained delta, m')
| .settle => (.done, m.settle)

end TrackedMap

end OverlayCache
