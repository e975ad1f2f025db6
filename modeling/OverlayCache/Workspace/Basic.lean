import OverlayCache.Container.Call
import OverlayCache.Entry.Call
import OverlayCache.Entry.Commit

/-
  Workspaces, in which containers and entries have names.

  Any number of entries may be open at once, on the same or
  on different keys and containers.  A step acts on one of
  them, and a run is any interleaving of such steps.

  Key definitions include:
    * `Workspace`
    * `Workspace.Step`
    * `Workspace.step`
    * `Workspace.run`
-/

------------------------------------------------------------
-- Workspaces
------------------------------------------------------------

namespace OverlayCache

/- Named containers and entries, and the store behind them. -/
structure Workspace (K V δ ω σ : Type) [Ord K] where
  containers : Std.ExtTreeMap String (Container K V) := ∅
  entries : Std.ExtTreeMap String (Entry K V δ ω) := ∅
  store : σ

namespace Workspace

variable {K V δ ω σ : Type} [Ord K]

/- The container of a name. -/
def container?
    (w : Workspace K V δ ω σ)
    (name : String) : Option (Container K V) :=
  w.containers[name]?

/- The entry of a name. -/
def entry?
    (w : Workspace K V δ ω σ)
    (name : String) : Option (Entry K V δ ω) :=
  w.entries[name]?

/- Give a container a name. -/
def keepContainer
    (w : Workspace K V δ ω σ)
    (name : String)
    (c : Container K V) : Workspace K V δ ω σ :=
  { w with containers := w.containers.insert name c }

/- Give an entry a name. -/
def keepEntry
    (w : Workspace K V δ ω σ)
    (name : String)
    (e : Entry K V δ ω) : Workspace K V δ ω σ :=
  { w with entries := w.entries.insert name e }

/- Take the name of an entry away. -/
def dropEntry
    (w : Workspace K V δ ω σ)
    (name : String) : Workspace K V δ ω σ :=
  { w with entries := w.entries.erase name }

end Workspace

end OverlayCache

------------------------------------------------------------
-- Steps
------------------------------------------------------------

namespace OverlayCache

namespace Workspace

/-
  One thing that is done in a workspace.  Whatever a step
  makes replaces what had the name before, and an entry that
  is wrapped loses its own name.
-/
inductive Step (K V δ : Type) where
| container (name : String) (limit : Option Nat)
| callContainer
    (name : String) (call : Container.Call K V)
| plain
    (name : String) (origin : Plain.Origin K V)
    (version : Option Version)
    (lifespan maxIdle : Option Duration)
| alone
    (name : String) (key : K) (value : Option V)
    (config : Config)
| wrap
    (name : String) (key : K) (value : Option V)
    (config : Config) (below : String)
| copy (name : String) (source : String)
| callEntry (name : String) (call : Entry.Call V δ)
| commit
    (entry container : String) (version : Option Version)

/- What a step answers. -/
inductive Reply (V : Type) where
| done
| container (reply : Container.Reply V)
| entry (reply : Entry.Reply V)
| missing

/- What is left after a step. -/
structure Turn (K V δ ω σ : Type) [Ord K] where
  workspace : Workspace K V δ ω σ
  events : List (Event K δ) := []
  reply : Reply V := .done

variable {K V δ ω σ : Type} [Ord K] [Std.TransOrd K]
variable [Delta δ ω] [Holding V σ δ]

/- Nothing has the name that a step asks for. -/
def absent (w : Workspace K V δ ω σ) :
    Turn K V δ ω σ :=
  { workspace := w, reply := .missing }

/- Change a named container. -/
def callContainer
    (w : Workspace K V δ ω σ)
    (name : String)
    (call : Container.Call K V) : Turn K V δ ω σ :=
  match w.container? name with
  | none => w.absent
  | some c =>
      let (c', reply) := c.call call
      { workspace := w.keepContainer name c'
        events :=
          match reply with
          | .refused refusal => refusal.events
          | _ => []
        reply := .container reply }

/- Call a named entry. -/
def callEntry
    (w : Workspace K V δ ω σ)
    (name : String)
    (call : Entry.Call V δ) : Turn K V δ ω σ :=
  match w.entry? name with
  | none => w.absent
  | some e =>
      let t := e.call call
      { workspace := w.keepEntry name t.entry
        events := t.events
        reply := .entry t.reply }

/- Commit a named entry to a named container. -/
def commit
    (w : Workspace K V δ ω σ)
    (entry container : String)
    (version : Option Version) : Turn K V δ ω σ :=
  match w.entry? entry, w.container? container with
  | some e, some c =>
      let o := e.commit c w.store version
      { workspace :=
          ({ w with store := o.store }.keepEntry
            entry o.entry).keepContainer
              container o.container
        events := o.events
        reply :=
          match o.result with
          | .ok () => .entry .done
          | .error refusal =>
              .entry (.refused (.container refusal)) }
  | _, _ => w.absent

/- Put a layer over a named entry, which loses its name. -/
def wrap
    (w : Workspace K V δ ω σ)
    (name : String)
    (l : Layer K V δ ω)
    (below : String) : Turn K V δ ω σ :=
  match w.entry? below with
  | none => w.absent
  | some e =>
      { workspace :=
          (w.dropEntry below).keepEntry name
            (.stacked l e) }

/- Copy a named plain entry.  Layers cannot be copied. -/
def copy
    (w : Workspace K V δ ω σ)
    (name source : String) : Turn K V δ ω σ :=
  match w.entry? source with
  | some (.plain p) =>
      { workspace := w.keepEntry name (.plain p) }
  | _ => w.absent

/- Carry out a step. -/
def step
    (w : Workspace K V δ ω σ) :
    Step K V δ → Turn K V δ ω σ
| .container name limit =>
    { workspace := w.keepContainer name (.empty limit) }
| .callContainer name call => w.callContainer name call
| .plain name origin version lifespan maxIdle =>
    { workspace :=
        w.keepEntry name
          (.plain
            { Plain.ofOrigin origin with
              version := version
              lifespan := lifespan
              maxIdle := maxIdle }) }
| .alone name key value config =>
    { workspace :=
        w.keepEntry name
          (.alone (.fresh key value config)) }
| .wrap name key value config below =>
    w.wrap name (.fresh key value config) below
| .copy name source => w.copy name source
| .callEntry name call => w.callEntry name call
| .commit entry container version =>
    w.commit entry container version

/- Carry out steps in order. -/
def run
    (w : Workspace K V δ ω σ)
    (steps : List (Step K V δ)) : Workspace K V δ ω σ :=
  steps.foldl (fun v s => (v.step s).workspace) w

end Workspace

end OverlayCache

------------------------------------------------------------
-- Entries Of Changed Workspaces
------------------------------------------------------------

namespace OverlayCache

namespace Workspace

variable {K V δ ω σ : Type} [Ord K]

/- Keeping an entry concerns its own name only. -/
theorem entry?_keepEntry
    (w : Workspace K V δ ω σ)
    (name other : String)
    (e : Entry K V δ ω) :
    Workspace.entry? (w.keepEntry name e) other =
      if other = name then some e else w.entry? other := by
  simp [keepEntry, entry?, Std.ExtTreeMap.getElem?_insert,
    @eq_comm _ name other]

theorem entry?_dropEntry
    (w : Workspace K V δ ω σ)
    (name other : String) :
    Workspace.entry? (w.dropEntry name) other =
      if other = name then none else w.entry? other := by
  simp [dropEntry, entry?, Std.ExtTreeMap.getElem?_erase,
    @eq_comm _ name other]

/- A call replaces the entry that has the name. -/
theorem callEntry_eq
    [Delta δ ω]
    {w : Workspace K V δ ω σ}
    {name : String}
    {e : Entry K V δ ω}
    (hEntry : w.entry? name = some e)
    (c : Entry.Call V δ) :
    w.callEntry name c =
      { workspace := w.keepEntry name (e.call c).entry
        events := (e.call c).events
        reply := .entry (e.call c).reply } := by
  simp [callEntry, hEntry]

end Workspace

end OverlayCache
