import OverlayCache.Event

/-
  What a commit does to its key in a repository.

  Key definitions include:
    * `Publication`
    * `Publication.carryOut`
    * `Publication.events`
-/

namespace OverlayCache

/- A value is stored, the key is removed, or neither. -/
inductive Publication (V : Type) where
| nothing
| removal
| put (value : V)
deriving DecidableEq

namespace Publication

variable {γ K V δ : Type}

/- The repository after the publication, unless it refuses. -/
def carryOut
    [Repository γ K V]
    (key : K)
    (version : Option Version)
    (c : γ) :
    Publication V → Except Refusal γ
| .nothing => .ok c
| .removal =>
    match Repository.remove c key with
    | .error refusal => .error refusal
    | .ok (_, c') => .ok c'
| .put value => Repository.put c key value version

/- What is reported before the repository is asked. -/
def events
    (key : K)
    (version : Option Version) :
    Publication V → List (Event K δ)
| .nothing => []
| .removal => [.removing key]
| .put _ => [.publishing key version]

end Publication

end OverlayCache
