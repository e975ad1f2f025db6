import OverlayCache.Entry.Basic
import OverlayCache.Shared

/-
  Opening keys of a container for delta writes.

  An opener wraps a key in a plain entry, which is prepared
  at once, and puts a layer over it.  Both hold the handle
  that the container holds.  A key that the container lacks
  gets a handle to a new aggregate, and the first commit
  brings it into the container.

  Key definitions include:
    * `Opener`
    * `Opener.beginWrite`
    * `Opener.alone`
-/

namespace OverlayCache

/- An opener gives its settings to every layer it makes. -/
structure Opener where
  config : Config := {}
deriving DecidableEq, Repr

/- What is left after a key was opened. -/
structure Opened (K α δ ω : Type) where
  entry : Entry K (Handle α) δ ω
  store : Heap α
  events : List (Event K δ)

namespace Opener

instance : Outlined Opener where
  outline o :=
    .record "EntryFactory" [("config", outline o.config)]

variable {K α δ ω : Type}

/- A layer over a plain entry that is ready for writing. -/
def wrap
    [Delta δ ω]
    (o : Opener)
    (h : Handle α)
    (p : Plain K (Handle α)) :
    Entry K (Handle α) δ ω :=
  .stacked (.fresh p.key (some h) o.config) (.plain p.capture)

/- Open a key of a container for delta writes. -/
def beginWrite
    [Ord K] [Std.TransOrd K] [Delta δ ω] [Inhabited α]
    (o : Opener)
    (c : Container K (Handle α))
    (store : Heap α)
    (key : K) : Opened K α δ ω :=
  match c.get? key with
  | some h =>
      let p :=
        { Plain.existing key (some h) with
          version := c.version? key }
      { entry := o.wrap h p
        store := store
        events := [.opened key false] }
  | none =>
      let (h, store') := store.alloc default
      { entry := o.wrap h (Plain.created key h)
        store := store'
        events := [.opened key true] }

/- A layer that stands alone, with the opener's settings. -/
def alone
    {V : Type}
    [Delta δ ω]
    (o : Opener)
    (key : K)
    (value : Option V) : Entry K V δ ω :=
  .alone (.fresh key value o.config)

end Opener

end OverlayCache
