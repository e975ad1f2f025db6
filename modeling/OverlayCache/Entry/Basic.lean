import OverlayCache.Entry.Layer
import OverlayCache.Entry.Plain

/-
  Cache entries.

  An entry is plain, a layer that stands alone, or a layer
  over another entry.  In a stack of layers the entry at the
  bottom decides about the lifecycle of the key: whether it
  is created, removed, evicted, valid, or held for a lock.
  Only the changed flag belongs to each level by itself.

  Key definitions include:
    * `Entry`
    * `Entry.is`
    * `Entry.prepare`
    * `Entry.rollback`
    * `Entry.undelete`
-/

------------------------------------------------------------
-- Entries
------------------------------------------------------------

namespace OverlayCache

/- A transactional view of one key. -/
inductive Entry (K V δ ω : Type) where
| plain (p : Plain K V)
| alone (l : Layer K V δ ω)
| stacked (l : Layer K V δ ω) (below : Entry K V δ ω)

namespace Entry

variable {K V δ ω : Type}

/- The key of the entry. -/
def key : Entry K V δ ω → K
| .plain p => p.key
| .alone l => l.key
| .stacked l _ => l.key

/- The live value of the topmost level. -/
def value : Entry K V δ ω → Option V
| .plain p => p.value
| .alone l => l.value
| .stacked l _ => l.value

/- The flags of the topmost level itself. -/
def ownFlags : Entry K V δ ω → Flags
| .plain p => p.flags
| .alone l => l.flags
| .stacked l _ => l.flags

/- Whether the current transaction wrote to this level. -/
def isChanged (e : Entry K V δ ω) : Bool :=
  e.ownFlags.changed

/- Whether a flag is up, as the bottom of the stack says. -/
def is (flag : Flag) : Entry K V δ ω → Bool
| .plain p => p.flags.has flag
| .alone l => l.flags.has flag
| .stacked l below =>
    if flag = .changed then
      l.flags.has flag
    else
      below.is flag

/- The version of a plain entry.  Layers have none. -/
def version : Entry K V δ ω → Option Version
| .plain p => p.version
| .alone _ => none
| .stacked _ _ => none

/- The topmost layer, unless the entry is plain. -/
def top? : Entry K V δ ω → Option (Layer K V δ ω)
| .plain _ => none
| .alone l => some l
| .stacked l _ => some l

/- The entry below the topmost layer. -/
def below? : Entry K V δ ω → Option (Entry K V δ ω)
| .plain _ => none
| .alone _ => none
| .stacked _ below => some below

/- Replace the topmost layer.  A plain entry has none. -/
def withTop (l : Layer K V δ ω) :
    Entry K V δ ω → Entry K V δ ω
| .plain p => .plain p
| .alone _ => .alone l
| .stacked _ below => .stacked l below

/- Replace the live value of the topmost level. -/
def withValue (value : Option V) :
    Entry K V δ ω → Entry K V δ ω
| .plain p => .plain { p with value := value }
| .alone l => .alone { l with value := value }
| .stacked l below => .stacked { l with value := value } below

/- Replace the flags of the topmost level itself. -/
def withOwnFlags (flags : Flags) :
    Entry K V δ ω → Entry K V δ ω
| .plain p => .plain { p with flags := flags }
| .alone l => .alone { l with flags := flags }
| .stacked l below => .stacked { l with flags := flags } below

/- Set the version of a plain entry.  Layers ignore it. -/
def withVersion (version : Option Version) :
    Entry K V δ ω → Entry K V δ ω
| .plain p => .plain { p with version := version }
| .alone l => .alone l
| .stacked l below => .stacked l below

end Entry

end OverlayCache

------------------------------------------------------------
-- Debug Form
------------------------------------------------------------

namespace OverlayCache

namespace Entry

variable {K V δ ω : Type}

/- The debug form, given that of held values. -/
def outlineWith
    [Outlined K] [Outlined ω]
    (held : V → Outline)
    (e : Entry K V δ ω) : Outline :=
  letI : Outlined V := ⟨held⟩
  let layered (l : Layer K V δ ω) :=
    Outline.record "DeltaAwareEntry"
      [("key", outline l.key),
        ("value", outline l.value),
        ("uncommitted", outline l.work),
        ("is_created", outline (e.is .created)),
        ("is_changed", outline (e.is .changed)),
        ("is_removed", outline (e.is .removed)),
        ("is_valid", outline (e.is .valid))]
  match e with
  | .plain p => outline p
  | .alone l => layered l
  | .stacked l _ => layered l

end Entry

end OverlayCache

------------------------------------------------------------
-- Transactions Without A Container
------------------------------------------------------------

namespace OverlayCache

namespace Entry

variable {K V δ ω : Type}

/-
  Prepare every level for a write, from the bottom up.  Each
  layer that is touched for the first time reports it.
-/
def prepare :
    Entry K V δ ω → Entry K V δ ω × List (Event K δ)
| .plain p => (.plain p.capture, [])
| .alone l =>
    let created := l.flags.created
    (.alone (l.start created),
      if l.flags.changed then
        []
      else
        [.prepared l.key created])
| .stacked l below =>
    let (below', events) := below.prepare
    let created := below'.is .created
    (.stacked (l.start created) below',
      if l.flags.changed then
        events
      else
        events ++ [.prepared l.key created])

/-
  Undo the transaction at every level, from the bottom up.  A
  layer over another entry takes its value back from there.
-/
def rollback [Delta δ ω] :
    Entry K V δ ω → Entry K V δ ω × List (Event K δ)
| .plain p =>
    let (p', events) := p.rollback
    (.plain p', events)
| .alone l =>
    let (l', events) := l.discard l.snapshot
    (.alone l', events)
| .stacked l below =>
    let (below', events) := below.rollback
    let (l', events') := l.discard below'.value
    (.stacked l' below', events ++ events')

/- The bottom of the stack. -/
def bottom : Entry K V δ ω → Entry K V δ ω
| .plain p => .plain p
| .alone l => .alone l
| .stacked _ below => below.bottom

/- Change the bottom of the stack and nothing above it. -/
def mapBottom
    (f : Entry K V δ ω → Entry K V δ ω) :
    Entry K V δ ω → Entry K V δ ω
| .plain p => f (.plain p)
| .alone l => f (.alone l)
| .stacked l below => .stacked l (below.mapBottom f)

/-
  Take a pending removal back, which is up to the bottom of
  the stack.  The answer says whether there was one.
-/
def undelete
    (on : Bool)
    (e : Entry K V δ ω) :
    Bool × Entry K V δ ω × List (Event K δ) :=
  let b := e.bottom
  if b.is .removed && on then
    let flags := (b.ownFlags.lower .removed).raise .valid
    (true,
      e.mapBottom (fun b => b.withOwnFlags flags),
      [.undeleted b.key])
  else
    (false, e, [])

/- A key that is not removed has no removal to take back. -/
theorem undelete_of_present
    {e : Entry K V δ ω}
    (hPresent : e.bottom.is .removed = false)
    (on : Bool) :
    e.undelete on = (false, e, []) := by
  simp [undelete, hPresent]

end Entry

end OverlayCache
