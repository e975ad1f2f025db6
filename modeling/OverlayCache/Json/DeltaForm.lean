import OverlayCache.Json.Reader
import OverlayCache.Json.Writer
import OverlayCache.Map.Op

/-
  The JSON form of map deltas.

  A delta is a record of its operations.  An operation is an
  object with one member, named for what it does, whose value
  is the record of its details.  Clearing has no details and
  may be written as the bare name.

  Key definitions include:
    * `JsonScalar`
    * `MapOp.toJson`
    * `MapOp.ofJson?`
    * `MapDelta.toJson`
    * `MapDelta.ofJson?`
    * `MapDelta.read?`
-/

------------------------------------------------------------
-- Keys And Values
------------------------------------------------------------

namespace OverlayCache

/- Types whose values are single JSON tokens. -/
class JsonScalar (α : Type) where
  toJson : α → Json
  ofJson? : Json → Option α

instance : JsonScalar String where
  toJson s := .ofString s
  ofJson?
  | .str gs => Json.text? gs
  | _ => none

/- Integers are read when they fit into 64 signed bits. -/
instance : JsonScalar Int64 where
  toJson n := .int n.toInt
  ofJson?
  | .int n =>
      if Int64.minValue.toInt ≤ n ∧
          n ≤ Int64.maxValue.toInt then
        some (Int64.ofInt n)
      else
        none
  | _ => none

end OverlayCache

------------------------------------------------------------
-- Operations
------------------------------------------------------------

namespace OverlayCache

namespace MapOp

variable {κ ν : Type} [JsonScalar κ] [JsonScalar ν]

/- The JSON form of an operation. -/
def toJson : MapOp κ ν → Json
| .put key value =>
    .ofMembers
      [("Put",
        .ofMembers
          [("key", JsonScalar.toJson key),
            ("value", JsonScalar.toJson value)])]
| .remove key =>
    .ofMembers
      [("Remove",
        .ofMembers [("key", JsonScalar.toJson key)])]
| .clear => .ofString "Clear"

/- The mapping of a put. -/
def putOfJson? (j : Json) : Option (MapOp κ ν) := do
  match ← j.body? ["key", "value"] with
  | [key, value] =>
      let k ← JsonScalar.ofJson? key
      let v ← JsonScalar.ofJson? value
      some (.put k v)
  | _ => none

/- The key of a removal. -/
def removeOfJson? (j : Json) : Option (MapOp κ ν) := do
  match ← j.body? ["key"] with
  | [key] =>
      let k ← JsonScalar.ofJson? key
      some (.remove k)
  | _ => none

/- The operation that a value stands for. -/
def ofJson? : Json → Option (MapOp κ ν)
| .str gs =>
    if gs = Json.glyphs "Clear" then
      some .clear
    else
      none
| .obj [(name, j)] =>
    if name = Json.glyphs "Put" then
      putOfJson? j
    else if name = Json.glyphs "Remove" then
      removeOfJson? j
    else if name = Json.glyphs "Clear" then
      match j with
      | .null => some .clear
      | _ => none
    else
      none
| _ => none

end MapOp

end OverlayCache

------------------------------------------------------------
-- Deltas
------------------------------------------------------------

namespace OverlayCache

namespace MapDelta

variable {κ ν : Type} [JsonScalar κ] [JsonScalar ν]

/- The JSON form of a delta. -/
def toJson (d : MapDelta κ ν) : Json :=
  .ofMembers [("operations", .arr (d.ops.map MapOp.toJson))]

/- The delta that a value stands for. -/
def ofJson? (j : Json) : Option (MapDelta κ ν) := do
  match ← j.body? ["operations"] with
  | [.arr items] =>
      let ops ← items.mapM MapOp.ofJson?
      some ⟨ops⟩
  | _ => none

/- The JSON text of a delta. -/
def write (d : MapDelta κ ν) : String :=
  d.toJson.write

/- The delta that a JSON text writes. -/
def read? (s : String) : Option (MapDelta κ ν) := do
  let j ← Json.read? s
  ofJson? j

end MapDelta

end OverlayCache
