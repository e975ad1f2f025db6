import OverlayCache.Entry.Call
import OverlayCache.Entry.Commit
import OverlayCache.Opener

/-
  A cache of shared aggregates.

  A cache has a container without a limit, the heap of the
  aggregates, and an opener.  Entries that were opened on it
  are kept under names, and may be used again after their
  transaction has ended.

  Key definitions include:
    * `Cache`
    * `Cache.committed?`
    * `Cache.commitAt`
    * `Cache.Step`
    * `Cache.step`
    * `Cache.run`
-/

------------------------------------------------------------
-- Caches
------------------------------------------------------------

namespace OverlayCache

/- The state of a cache and of the entries opened on it. -/
structure Cache (K α δ ω : Type) [Ord K] where
  container : Container K (Handle α) := .empty none
  store : Heap α := .empty
  opener : Opener := {}
  entries :
    Std.ExtTreeMap String (Entry K (Handle α) δ ω) := ∅

namespace Cache

variable {K α δ ω : Type} [Ord K]

/- A cache without keys whose layers have these settings. -/
def withConfig (config : Config) : Cache K α δ ω where
  opener := ⟨config⟩

/- The entry that is kept under a name. -/
def entry?
    (cache : Cache K α δ ω)
    (name : String) : Option (Entry K (Handle α) δ ω) :=
  cache.entries[name]?

/- Keep an entry under a name. -/
def keep
    (cache : Cache K α δ ω)
    (name : String)
    (e : Entry K (Handle α) δ ω) : Cache K α δ ω :=
  { cache with entries := cache.entries.insert name e }

variable [Std.TransOrd K] [Inhabited α]

/- The committed aggregate under a key. -/
def committed? (cache : Cache K α δ ω) (key : K) :
    Option α :=
  (cache.container.get? key).map cache.store.read

/- The aggregate that a kept entry holds. -/
def held?
    (cache : Cache K α δ ω)
    (name : String) : Option α :=
  let e := cache.entry? name
  (e.bind Entry.value).map cache.store.read

end Cache

end OverlayCache

------------------------------------------------------------
-- Steps
------------------------------------------------------------

namespace OverlayCache

namespace Cache

/- One thing that is done to a cache. -/
inductive Step (K α δ : Type) where
| seed (key : K) (aggregate : α)
| beginWrite (name : String) (key : K)
| call (name : String) (call : Entry.Call (Handle α) δ)
| commit (name : String)

/- What is left after a step. -/
structure Turn (K α δ ω : Type) [Ord K] where
  cache : Cache K α δ ω
  events : List (Event K δ) := []
  reply : Entry.Reply (Handle α) := .done

variable {K α δ ω : Type} [Ord K] [Std.TransOrd K]
variable [Inhabited α] [Delta δ ω] [Aggregate α δ]

/- Store a new aggregate under a key, without a version. -/
def seed
    (cache : Cache K α δ ω)
    (key : K)
    (aggregate : α) : Turn K α δ ω :=
  let (h, store) := cache.store.alloc aggregate
  match cache.container.put key h none with
  | .ok container =>
      { cache :=
          { cache with
            container := container
            store := store } }
  | .error refusal =>
      { cache := { cache with store := store }
        events := refusal.events
        reply := .refused (.container refusal) }

/- Open a key and keep the entry under a name. -/
def beginWrite
    (cache : Cache K α δ ω)
    (name : String)
    (key : K) : Turn K α δ ω :=
  let o :=
    cache.opener.beginWrite
      cache.container cache.store key
  { cache :=
      { cache with store := o.store }.keep name o.entry
    events := o.events }

/- Call a kept entry. -/
def call
    (cache : Cache K α δ ω)
    (name : String)
    (call : Entry.Call (Handle α) δ) : Turn K α δ ω :=
  match cache.entry? name with
  | none => { cache := cache, reply := .unsupported }
  | some e =>
      let t := e.call call
      { cache := cache.keep name t.entry
        events := t.events
        reply := t.reply }

/- Commit a kept entry, at a version if one is given. -/
def commitAt
    (cache : Cache K α δ ω)
    (name : String)
    (version : Option Version) : Turn K α δ ω :=
  match cache.entry? name with
  | none => { cache := cache, reply := .unsupported }
  | some e =>
      let o := e.commit cache.container cache.store version
      { cache :=
          { cache with
            container := o.container
            store := o.store }.keep name o.entry
        events := o.events
        reply :=
          match o.result with
          | .ok () => .done
          | .error refusal =>
              .refused (.container refusal) }

/- Commit a kept entry, without a version. -/
def commit
    (cache : Cache K α δ ω)
    (name : String) : Turn K α δ ω :=
  cache.commitAt name none

/- Carry out a step. -/
def step
    (cache : Cache K α δ ω) :
    Step K α δ → Turn K α δ ω
| .seed key aggregate => cache.seed key aggregate
| .beginWrite name key => cache.beginWrite name key
| .call name c => cache.call name c
| .commit name => cache.commit name

/- Carry out steps in order. -/
def run
    (cache : Cache K α δ ω)
    (steps : List (Step K α δ)) : Cache K α δ ω :=
  steps.foldl (fun c s => (c.step s).cache) cache

end Cache

end OverlayCache

------------------------------------------------------------
-- Kept Entries
------------------------------------------------------------

namespace OverlayCache

namespace Cache

variable {K α δ ω : Type} [Ord K]

@[simp] theorem entry?_withConfig
    (config : Config)
    (name : String) :
    Cache.entry? (withConfig config : Cache K α δ ω) name =
      none := by
  unfold entry? withConfig
  simp

/- Keeping an entry concerns its own name only. -/
theorem entry?_keep
    (cache : Cache K α δ ω)
    (name other : String)
    (e : Entry K (Handle α) δ ω) :
    Cache.entry? (cache.keep name e) other =
      if other = name then some e else cache.entry? other := by
  simp [keep, entry?, Std.ExtTreeMap.getElem?_insert,
    @eq_comm _ name other]

end Cache

end OverlayCache
