import OverlayCache.Container.Basic
import OverlayCache.Text.Outline

/-
  Events that operations report, in the order in which they
  happen.

  Key definitions include:
    * `Event`
    * `Event.level`
    * `Event.message`
    * `Event.fields`
    * `Refusal.events`
-/

------------------------------------------------------------
-- Events
------------------------------------------------------------

namespace OverlayCache

/- How much an event matters. -/
inductive Level where
| trace
| debug
| warn
deriving DecidableEq, Repr

namespace Level

/- The name of a level. -/
def label : Level → String
| .trace => "TRACE"
| .debug => "DEBUG"
| .warn => "WARN"

end Level

/- One thing that happened, with what it happened to. -/
inductive Event (K δ : Type) where
| containerFull (limit : Nat)
| removing (key : K)
| publishing (key : K) (version : Option Version)
| restored (key : K)
| undeleted (key : K)
| deltaRefused (key : K)
| deltaAppended (key : K) (pending : Nat) (delta : δ)
| prepared (key : K) (created : Bool)
| replayed (key : K) (count : Nat)
| discarded (key : K) (count : Nat)
| opened (key : K) (created : Bool)
deriving DecidableEq, Repr

namespace Event

variable {K δ : Type}

/- How much an event matters. -/
def level : Event K δ → Level
| .containerFull _ => .debug
| .removing _ => .debug
| .publishing _ _ => .debug
| .deltaRefused _ => .warn
| _ => .trace

/- The text of an event. -/
def message : Event K δ → String
| .containerFull _ => "container full, rejecting new key"
| .removing _ => "removing committed entry"
| .publishing _ _ => "publishing committed entry"
| .restored _ => "rolling back read-committed entry"
| .undeleted _ =>
    "entry is deleted in current scope, un-deleting"
| .deltaRefused _ =>
    "rejecting delta for removed or invalid entry"
| .deltaAppended _ _ _ => "appended delta"
| .prepared _ _ => "copy for update"
| .replayed _ _ => "committed deltas"
| .discarded _ _ => "rolling back deltas"
| .opened _ _ => "wrapped entry for delta write"

/- The named details of an event. -/
def fields
    [Outlined K] [Outlined δ] :
    Event K δ → List (String × Outline)
| .containerFull limit => [("limit", outline limit)]
| .removing key => [("key", outline key)]
| .publishing key version =>
    [("key", outline key), ("version", outline version)]
| .restored key => [("key", outline key)]
| .undeleted key => [("key", outline key)]
| .deltaRefused key => [("key", outline key)]
| .deltaAppended key pending delta =>
    [("key", outline key), ("pending", outline pending),
      ("delta", outline delta)]
| .prepared key created =>
    [("key", outline key), ("created", outline created)]
| .replayed key count =>
    [("key", outline key), ("replayed", outline count)]
| .discarded key count =>
    [("key", outline key), ("discarded", outline count)]
| .opened key created =>
    [("key", outline key), ("created", outline created)]

end Event

end OverlayCache

------------------------------------------------------------
-- Events Of Refusals
------------------------------------------------------------

namespace OverlayCache

namespace Refusal

variable {K δ : Type}

/- A full container reports that it refused a key. -/
def events : Refusal → List (Event K δ)
| .full limit => [.containerFull limit]
| .closed => []

end Refusal

end OverlayCache
