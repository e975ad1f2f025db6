import OverlayCache.Entry.Publication
import OverlayCache.Flags

/-
  Plain entries, which publish a whole value at commit.

  A plain entry captures its value and flags when it is
  prepared for an update.  A rollback brings both back, and a
  commit publishes the value to a repository or removes the
  key from it.  A commit that the repository refuses leaves
  the transaction open, with the version it asked for.

  Key definitions include:
    * `Plain`
    * `Plain.capture`
    * `Plain.publication`
    * `Plain.commit`
    * `Plain.rollback`
-/

------------------------------------------------------------
-- Durations
------------------------------------------------------------

namespace OverlayCache

/- A span of time, with less than a second of nanoseconds. -/
structure Duration where
  seconds : Nat
  nanos : Nat
deriving DecidableEq, Repr

namespace Duration

/- Whole seconds in the nanoseconds carry over. -/
def ofParts (seconds nanos : Nat) : Duration where
  seconds := seconds + nanos / 1000000000
  nanos := nanos % 1000000000

end Duration

end OverlayCache

------------------------------------------------------------
-- Plain Entries
------------------------------------------------------------

namespace OverlayCache

/- What a plain entry was before its update. -/
structure Captured (V : Type) where
  value : Option V
  flags : Flags
deriving DecidableEq

/- A transactional view of one key as a whole value. -/
structure Plain (K V : Type) where
  key : K
  value : Option V
  captured : Option (Captured V) := none
  version : Option Version := none
  flags : Flags := .untouched
  lifespan : Option Duration := none
  maxIdle : Option Duration := none

namespace Plain

variable {K V : Type}

/- An entry for a key that exists already. -/
def existing (key : K) (value : Option V) : Plain K V where
  key := key
  value := value

/- An entry for a key that the transaction brings about. -/
def created (key : K) (value : V) : Plain K V where
  key := key
  value := some value
  flags := Flags.untouched.raise .created

/- An entry that only stands in for a lock. -/
def placeholder (key : K) : Plain K V where
  key := key
  value := none
  flags := Flags.untouched.raise .lockPlaceholder

/- The ways in which a plain entry comes about. -/
inductive Origin (K V : Type) where
| existing (key : K) (value : Option V)
| created (key : K) (value : V)
| placeholder (key : K)

/- The entry of an origin. -/
def ofOrigin : Origin K V → Plain K V
| .existing key value => existing key value
| .created key value => created key value
| .placeholder key => placeholder key

/- Prepare for the first write of a transaction. -/
def capture (p : Plain K V) : Plain K V :=
  if p.flags.changed then
    p
  else
    { p with
      captured := some ⟨p.value, p.flags⟩
      flags := p.flags.raise .changed }

instance [Outlined K] [Outlined V] :
    Outlined (Plain K V) where
  outline p :=
    .record "ReadCommittedEntry"
      [("key", outline p.key),
        ("value", outline p.value),
        ("version", outline p.version),
        ("flags", outline p.flags)]

end Plain

end OverlayCache

------------------------------------------------------------
-- Ending A Transaction
------------------------------------------------------------

namespace OverlayCache

/- What is left after the commit of a plain entry. -/
structure Published (γ K V δ : Type) where
  entry : Plain K V
  container : γ
  events : List (Event K δ)
  result : Except Refusal Unit

namespace Plain

variable {γ K V δ : Type}

/- What a commit of the entry does to its key. -/
def publication (p : Plain K V) : Publication V :=
  if p.flags.removed then
    if p.flags.evicted then .nothing else .removal
  else if p.flags.valid then
    match p.value with
    | some value => .put value
    | none => .nothing
  else
    .nothing

/- The entry after its transaction took effect. -/
def finish (p : Plain K V) : Plain K V :=
  { p with
    value := if p.flags.removed then none else p.value
    captured := none
    flags := .untouched }

/-
  Publish the entry.  An unchanged entry publishes nothing,
  and a given version replaces that of the entry.
-/
def commit
    [Repository γ K V]
    (p : Plain K V)
    (c : γ)
    (version : Option Version) : Published γ K V δ :=
  if p.flags.changed then
    let p := { p with version := version.or p.version }
    let events := p.publication.events p.key p.version
    match p.publication.carryOut p.key p.version c with
    | .error refusal =>
        { entry := p
          container := c
          events := events ++ refusal.events
          result := .error refusal }
    | .ok c' =>
        { entry := p.finish
          container := c'
          events := events
          result := .ok () }
  else
    { entry := p
      container := c
      events := []
      result := .ok () }

/- Go back to what was captured, if anything was. -/
def rollback (p : Plain K V) :
    Plain K V × List (Event K δ) :=
  match p.captured with
  | none => (p, [])
  | some before =>
      ({ p with
          value := before.value
          flags := before.flags
          captured := none },
        [.restored p.key])

end Plain

end OverlayCache

------------------------------------------------------------
-- Fields Of Prepared And Restored Entries
------------------------------------------------------------

namespace OverlayCache

namespace Plain

variable {K V δ : Type}

@[simp] theorem key_capture (p : Plain K V) :
    p.capture.key = p.key := by
  unfold capture
  split <;> rfl

@[simp] theorem value_capture (p : Plain K V) :
    p.capture.value = p.value := by
  unfold capture
  split <;> rfl

@[simp] theorem version_capture (p : Plain K V) :
    p.capture.version = p.version := by
  unfold capture
  split <;> rfl

/- Preparing an entry raises the changed flag only. -/
@[simp] theorem flags_capture (p : Plain K V) :
    p.capture.flags = p.flags.raise .changed := by
  unfold capture
  split
  · next hChanged =>
      exact
        (Flags.raise_of_has (f := .changed) hChanged).symm
  · rfl

/- The capture is made once in a transaction. -/
theorem captured_capture (p : Plain K V) :
    p.capture.captured =
      if p.flags.changed then
        p.captured
      else
        some ⟨p.value, p.flags⟩ := by
  unfold capture
  split <;> rfl

/- What is captured does not concern the key. -/
@[simp] theorem key_rollback (p : Plain K V) :
    (p.rollback (δ := δ)).1.key = p.key := by
  unfold rollback
  cases p.captured with
  | none => rfl
  | some before => rfl

end Plain

end OverlayCache
