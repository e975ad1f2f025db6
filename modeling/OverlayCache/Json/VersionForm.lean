import OverlayCache.Json.Reader
import OverlayCache.Json.Writer
import OverlayCache.Version

/-
  The JSON form of versions, which is that of their number.

  Key definitions include:
    * `Version.write`
    * `Version.read?`
-/

namespace OverlayCache

namespace Version

/- The JSON form of a version. -/
def toJson (v : Version) : Json :=
  .int v.number.toNat

/- The version of an integer without sign that fits. -/
def ofJson? : Json → Option Version
| .int n =>
    if 0 ≤ n ∧ n < UInt64.size then
      some ⟨UInt64.ofNat n.toNat⟩
    else
      none
| _ => none

/- The JSON text of a version. -/
def write (v : Version) : String :=
  v.toJson.write

/- The version that a JSON text writes. -/
def read? (s : String) : Option Version := do
  let j ← Json.read? s
  ofJson? j

end Version

end OverlayCache
