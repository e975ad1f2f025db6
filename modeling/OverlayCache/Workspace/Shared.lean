import OverlayCache.Map.Tracked
import OverlayCache.Opener
import OverlayCache.Workspace.Basic

/-
  Workspaces whose values are handles to tracked maps.

  Here handles have names too.  They are made new, copied,
  detached, or taken out of containers and entries, and the
  maps they name can be changed directly.

  Key definitions include:
    * `SharedWorkspace`
    * `SharedWorkspace.Step`
    * `SharedWorkspace.step`
    * `SharedWorkspace.run`
-/

------------------------------------------------------------
-- Shared Workspaces
------------------------------------------------------------

namespace OverlayCache

/- Handles to tracked maps. -/
abbrev MapHandle (κ ν : Type) [Ord κ] :=
  Handle (TrackedMap κ ν)

/- A workspace of shared maps, with named handles. -/
structure SharedWorkspace
    (K κ ν : Type) [Ord K] [Ord κ] where
  base :
    Workspace K (MapHandle κ ν) (MapDelta κ ν)
      (TrackedMap κ ν) (Heap (TrackedMap κ ν)) :=
    { store := .empty }
  handles : Std.ExtTreeMap String (MapHandle κ ν) := ∅

namespace SharedWorkspace

variable {K κ ν : Type} [Ord K] [Ord κ]

/- The handle of a name. -/
def handle?
    (w : SharedWorkspace K κ ν)
    (name : String) : Option (MapHandle κ ν) :=
  w.handles[name]?

/- Give a handle a name. -/
def keepHandle
    (w : SharedWorkspace K κ ν)
    (name : String)
    (h : MapHandle κ ν) : SharedWorkspace K κ ν :=
  { w with handles := w.handles.insert name h }

/- Replace the heap. -/
def withStore
    (w : SharedWorkspace K κ ν)
    (store : Heap (TrackedMap κ ν)) :
    SharedWorkspace K κ ν :=
  { w with base := { w.base with store := store } }

/- The map that a handle names. -/
def read
    (w : SharedWorkspace K κ ν)
    (h : MapHandle κ ν) : TrackedMap κ ν :=
  w.base.store.read h

end SharedWorkspace

end OverlayCache

------------------------------------------------------------
-- Steps
------------------------------------------------------------

namespace OverlayCache

namespace SharedWorkspace

/- Where a handle can be taken from. -/
inductive Source (K : Type) where
| stored (container : String) (key : K)
| value (entry : String)
| snapshot (entry : String)
| below (entry : String)

/-
  One thing that is done in a shared workspace, apart from
  the steps of every workspace.
-/
inductive Step (K κ ν : Type) [Ord κ] where
| base
    (step :
      Workspace.Step K (MapHandle κ ν) (MapDelta κ ν))
| beginWrite
    (entry container : String) (key : K) (opener : Opener)
| share (name : String) (map : TrackedMap κ ν)
| copy (name : String) (source : String)
| detach (name : String) (source : String)
| grab (name : String) (source : Source K)
| call (name : String) (call : TrackedMap.Call κ ν)

/- What a step answers. -/
inductive Reply (κ ν : Type) [Ord κ] where
| done
| base (reply : Workspace.Reply (MapHandle κ ν))
| map (reply : TrackedMap.Reply κ ν)
| missing

/- What is left after a step. -/
structure Turn (K κ ν : Type) [Ord K] [Ord κ] where
  workspace : SharedWorkspace K κ ν
  events : List (Event K (MapDelta κ ν)) := []
  reply : Reply κ ν := .done

variable {K κ ν : Type} [Ord K] [Ord κ]
variable [Std.TransOrd K] [Std.TransOrd κ]

/- The handle that a source yields, if there is one. -/
def find?
    (w : SharedWorkspace K κ ν) :
    Source K → Option (MapHandle κ ν)
| .stored container key => do
    let c ← w.base.container? container
    c.get? key
| .value entry => do
    let e ← w.base.entry? entry
    e.value
| .snapshot entry => do
    let e ← w.base.entry? entry
    let l ← e.top?
    l.snapshot
| .below entry => do
    let e ← w.base.entry? entry
    let b ← e.below?
    b.value

/- Nothing has the name that a step asks for. -/
def absent (w : SharedWorkspace K κ ν) : Turn K κ ν :=
  { workspace := w, reply := .missing }

/- Open a key of a named container. -/
def beginWrite
    (w : SharedWorkspace K κ ν)
    (entry container : String)
    (key : K)
    (opener : Opener) : Turn K κ ν :=
  match w.base.container? container with
  | none => w.absent
  | some c =>
      let o := opener.beginWrite c w.base.store key
      { workspace :=
          { w with
            base :=
              { w.base with store := o.store }.keepEntry
                entry o.entry }
        events := o.events }

/- Name a new aggregate, made from that of a handle. -/
def detach
    (w : SharedWorkspace K κ ν)
    (name source : String) : Turn K κ ν :=
  match w.handle? source with
  | none => w.absent
  | some h =>
      let (g, store) := w.base.store.detach h
      { workspace := (w.withStore store).keepHandle name g }

/- Call the map of a named handle. -/
def call
    (w : SharedWorkspace K κ ν)
    (name : String)
    (call : TrackedMap.Call κ ν) : Turn K κ ν :=
  match w.handle? name with
  | none => w.absent
  | some h =>
      let (reply, store) :=
        w.base.store.run h (fun m => m.call call)
      { workspace := w.withStore store
        reply := .map reply }

/- Carry out a step. -/
def step
    (w : SharedWorkspace K κ ν) :
    Step K κ ν → Turn K κ ν
| .base s =>
    let t := w.base.step s
    { workspace := { w with base := t.workspace }
      events := t.events
      reply := .base t.reply }
| .beginWrite entry container key opener =>
    w.beginWrite entry container key opener
| .share name map =>
    let (h, store) := w.base.store.alloc map
    { workspace := (w.withStore store).keepHandle name h }
| .copy name source =>
    match w.handle? source with
    | none => w.absent
    | some h => { workspace := w.keepHandle name h }
| .detach name source => w.detach name source
| .grab name source =>
    match w.find? source with
    | none => w.absent
    | some h => { workspace := w.keepHandle name h }
| .call name c => w.call name c

/- Carry out steps in order. -/
def run
    (w : SharedWorkspace K κ ν)
    (steps : List (Step K κ ν)) : SharedWorkspace K κ ν :=
  steps.foldl (fun v s => (v.step s).workspace) w

end SharedWorkspace

end OverlayCache
