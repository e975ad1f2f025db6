import Std.Data.ExtTreeMap
import OverlayCache.Version

/-
  Containers of committed values.

  A container maps keys to values, each with an optional
  version.  It may have a limit on the number of its keys,
  and it may be closed, after which it can only be read or
  emptied.

  Key definitions include:
    * `Refusal`
    * `Container`
    * `Container.get?`
    * `Container.version?`
    * `Container.refusal?`
    * `Container.put`
    * `Container.remove`
    * `Repository`
-/

------------------------------------------------------------
-- Refusals
------------------------------------------------------------

namespace OverlayCache

/- Why a container does not carry out a change. -/
inductive Refusal where
| full (limit : Nat)
| closed
deriving DecidableEq, Repr

namespace Refusal

/- The text of a refusal for readers. -/
def message : Refusal → String
| .full limit =>
    "container capacity exceeded: limit " ++
      toString limit ++ " entries"
| .closed => "container is closed"

end Refusal

end OverlayCache

------------------------------------------------------------
-- Containers
------------------------------------------------------------

namespace OverlayCache

/- A stored value and the version it was stored at. -/
structure Stored (V : Type) where
  value : V
  version : Option Version
deriving DecidableEq

/- A bounded map from keys to stored values. -/
structure Container (K V : Type) [Ord K] where
  entries : Std.ExtTreeMap K (Stored V) := ∅
  limit : Option Nat := none
  closed : Bool := false

namespace Container

variable {K V : Type} [Ord K]

/- A container without keys. -/
def empty (limit : Option Nat) : Container K V where
  limit := limit

/- Close the container for good. -/
def close (c : Container K V) : Container K V :=
  { c with closed := true }

/- Drop every key.  A closed container can be emptied too. -/
def clear (c : Container K V) : Container K V :=
  { c with entries := ∅ }

variable [Std.TransOrd K]

/- What is stored under a key. -/
def stored? (c : Container K V) (k : K) :
    Option (Stored V) :=
  c.entries[k]?

/- The value under a key. -/
def get? (c : Container K V) (k : K) : Option V :=
  (c.stored? k).map (fun s => s.value)

/- The version under a key, if it was stored with one. -/
def version? (c : Container K V) (k : K) :
    Option Version :=
  (c.stored? k).bind (fun s => s.version)

/- Whether a key is present. -/
def contains (c : Container K V) (k : K) : Bool :=
  c.entries.contains k

/- The number of keys. -/
def size (c : Container K V) : Nat :=
  c.entries.size

/- Whether there are no keys. -/
def isEmpty (c : Container K V) : Bool :=
  c.entries.isEmpty

/-
  Why a value cannot be stored under a key.  A closed
  container refuses every key, a full one every new key.
-/
def refusal? (c : Container K V) (k : K) :
    Option Refusal :=
  if c.closed then
    some .closed
  else
    match c.limit with
    | none => none
    | some limit =>
        if !c.contains k && decide (limit ≤ c.size) then
          some (.full limit)
        else
          none

/- Store a value together with its version. -/
def put
    (c : Container K V)
    (k : K)
    (value : V)
    (version : Option Version) :
    Except Refusal (Container K V) :=
  match c.refusal? k with
  | some refusal => .error refusal
  | none =>
      .ok { c with
        entries := c.entries.insert k ⟨value, version⟩ }

/- Remove a key, giving back the value it had. -/
def remove
    (c : Container K V)
    (k : K) :
    Except Refusal (Option V × Container K V) :=
  if c.closed then
    .error .closed
  else
    .ok (c.get? k, { c with entries := c.entries.erase k })

end Container

end OverlayCache

------------------------------------------------------------
-- Reading Changed Containers
------------------------------------------------------------

namespace OverlayCache

namespace Container

variable {K V : Type} [Ord K] [Std.TransOrd K]

/- A container that is open and unbounded takes every key. -/
theorem refusal?_of_open
    {c : Container K V}
    (hLimit : c.limit = none)
    (hOpen : c.closed = false)
    (k : K) :
    c.refusal? k = none := by
  simp [refusal?, hLimit, hOpen]

/- Without a refusal the value is stored. -/
theorem put_of_refusal?_eq_none
    {c : Container K V}
    {k : K}
    (hTaken : c.refusal? k = none)
    (value : V)
    (version : Option Version) :
    c.put k value version =
      .ok { c with
        entries := c.entries.insert k ⟨value, version⟩ } := by
  simp [put, hTaken]

/- What is stored is read back under its key only. -/
theorem stored?_insert
    [Std.LawfulEqOrd K] [DecidableEq K]
    (c : Container K V)
    (k j : K)
    (s : Stored V) :
    stored? { c with entries := c.entries.insert k s } j =
      if j = k then some s else c.stored? j := by
  simp [stored?, Std.ExtTreeMap.getElem?_insert,
    @eq_comm _ k j]

theorem get?_insert
    [Std.LawfulEqOrd K] [DecidableEq K]
    (c : Container K V)
    (k j : K)
    (s : Stored V) :
    get? { c with entries := c.entries.insert k s } j =
      if j = k then some s.value else c.get? j := by
  unfold get?
  rw [stored?_insert]
  by_cases hEq : j = k
  · simp [hEq]
  · simp [hEq]

@[simp] theorem get?_empty
    (limit : Option Nat)
    (k : K) :
    (empty limit : Container K V).get? k = none := by
  simp [get?, stored?, empty]

end Container

end OverlayCache

------------------------------------------------------------
-- Repositories
------------------------------------------------------------

namespace OverlayCache

/-
  What entries can be committed to.  A repository accepts or
  refuses a change by rules of its own, and a change that it
  refuses leaves it as it was.
-/
class Repository (γ : Type) (K V : outParam Type) where
  put : γ → K → V → Option Version → Except Refusal γ
  remove : γ → K → Except Refusal (Option V × γ)

/- Containers are repositories. -/
instance Container.repository
    {K V : Type} [Ord K] [Std.TransOrd K] :
    Repository (Container K V) K V where
  put := Container.put
  remove := Container.remove

@[simp] theorem Repository.put_container
    {K V : Type} [Ord K] [Std.TransOrd K]
    (c : Container K V)
    (k : K)
    (value : V)
    (version : Option Version) :
    Repository.put c k value version =
      c.put k value version := rfl

@[simp] theorem Repository.remove_container
    {K V : Type} [Ord K] [Std.TransOrd K]
    (c : Container K V)
    (k : K) :
    Repository.remove c k = c.remove k := rfl

end OverlayCache
