import OverlayCache.Container.Basic

/-
  What can go wrong in a transaction.

  Key definitions include:
    * `Fault`
    * `Fault.message`
-/

namespace OverlayCache

/-
  A container refused a commit, or a strict layer refused a
  delta because its key is removed or not valid.
-/
inductive Fault where
| container (refusal : Refusal)
| deltaRefused
deriving DecidableEq, Repr

namespace Fault

/- The text of a fault for readers. -/
def message : Fault → String
| .container refusal =>
    "container error: " ++ refusal.message
| .deltaRefused =>
    "invalid operation: " ++
      "cannot append a delta to a removed or invalid entry"

end Fault

end OverlayCache
