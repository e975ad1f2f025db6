import OverlayCache.Entry.Basic
import OverlayCache.Fault

/-
  What a client does to an entry, apart from committing it.

  Key definitions include:
    * `Entry.Call`
    * `Entry.Call.KeepsValue`
    * `Entry.Reply`
    * `Entry.append`
    * `Entry.call`
-/

------------------------------------------------------------
-- Calls And Replies
------------------------------------------------------------

namespace OverlayCache

/- The lifecycle flags that clients may move. -/
inductive Mark where
| created
| removed
| valid
| evicted
deriving DecidableEq, Repr

namespace Mark

/- The flag that a mark moves. -/
def flag : Mark → Flag
| .created => .created
| .removed => .removed
| .valid => .valid
| .evicted => .evicted

end Mark

namespace Entry

/- One call on an entry. -/
inductive Call (V δ : Type) where
| append (delta : δ)
| setValue (value : Option V)
| mark (mark : Mark) (on : Bool)
| setLock (on : Bool)
| setVersion (version : Option Version)
| configure (config : Config)
| prepare
| rollback
| undelete (on : Bool)

/- The calls that leave the live value to transactions. -/
def Call.KeepsValue {V δ : Type} : Call V δ → Prop
| .setValue _ => False
| _ => True

/-
  What the caller is told.  A call that the kind of entry
  does not offer is unsupported and changes nothing.
-/
inductive Reply (V : Type) where
| done
| previous (value : Option V)
| undeleted (wasRemoved : Bool)
| refused (fault : Fault)
| unsupported
deriving DecidableEq

/- What is left after a call. -/
structure Turn (K V δ ω : Type) where
  entry : Entry K V δ ω
  events : List (Event K δ) := []
  reply : Reply V := .done

end Entry

end OverlayCache

------------------------------------------------------------
-- Carrying Out Calls
------------------------------------------------------------

namespace OverlayCache

namespace Entry

variable {K V δ ω : Type}

/-
  Append a delta to the topmost layer.  A strict layer
  refuses it while the key is removed or not valid.
-/
def append
    [Delta δ ω]
    (e : Entry K V δ ω)
    (d : δ) : Turn K V δ ω :=
  match e.top? with
  | none => { entry := e, reply := .unsupported }
  | some l =>
      if l.config.strict &&
          (e.is .removed || !e.is .valid) then
        { entry := e
          events := [.deltaRefused l.key]
          reply := .refused .deltaRefused }
      else
        let count := l.pending.length + 1
        { entry := e.withTop (l.append (e.is .created) d)
          events :=
            if l.config.traced then
              [.deltaAppended l.key count d]
            else
              [] }

/- Stand in for a lock, which only plain entries can do. -/
def setLock
    (e : Entry K V δ ω)
    (on : Bool) : Turn K V δ ω :=
  match e with
  | .plain p =>
      { entry :=
          .plain { p with
            flags := p.flags.assign .lockPlaceholder on } }
  | e => { entry := e, reply := .unsupported }

/- Replace the settings of the topmost layer. -/
def configure
    (e : Entry K V δ ω)
    (config : Config) : Turn K V δ ω :=
  match e.top? with
  | none => { entry := e, reply := .unsupported }
  | some l =>
      { entry := e.withTop { l with config := config } }

/- Carry out a call. -/
def call
    [Delta δ ω]
    (e : Entry K V δ ω) :
    Call V δ → Turn K V δ ω
| .append d => e.append d
| .setValue value =>
    { entry := e.withValue value
      reply := .previous e.value }
| .mark m on =>
    { entry :=
        e.withOwnFlags (e.ownFlags.assign m.flag on) }
| .setLock on => e.setLock on
| .setVersion version =>
    { entry := e.withVersion version }
| .configure config => e.configure config
| .prepare =>
    let (e', events) := e.prepare
    { entry := e', events := events }
| .rollback =>
    let (e', events) := e.rollback
    { entry := e', events := events }
| .undelete on =>
    let (wasRemoved, e', events) := e.undelete on
    { entry := e'
      events := events
      reply := .undeleted wasRemoved }

end Entry

end OverlayCache
