import OverlayCache.Container.Basic

/-
  The changes that clients make to a container, as data.

  Key definitions include:
    * `Container.Call`
    * `Container.Reply`
    * `Container.call`
-/

namespace OverlayCache

namespace Container

/- One change of a container. -/
inductive Call (K V : Type) where
| put (key : K) (value : V) (version : Option Version)
| remove (key : K)
| clear
| close

/- What the caller of a change is told. -/
inductive Reply (V : Type) where
| done
| removed (value : Option V)
| refused (refusal : Refusal)

variable {K V : Type} [Ord K] [Std.TransOrd K]

/- Carry out a change.  A refused one changes nothing. -/
def call
    (c : Container K V) :
    Call K V → Container K V × Reply V
| .put key value version =>
    match c.put key value version with
    | .error refusal => (c, .refused refusal)
    | .ok c' => (c', .done)
| .remove key =>
    match c.remove key with
    | .error refusal => (c, .refused refusal)
    | .ok (value, c') => (c', .removed value)
| .clear => (c.clear, .done)
| .close => (c.close, .done)

end Container

end OverlayCache
