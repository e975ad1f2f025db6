import OverlayCache.Text.Outline

/-
  Lifecycle flags of a cache entry.

  The six flags are independent of one another.  An entry
  that no transaction has touched carries `Flags.untouched`,
  in which only the valid flag is up.

  Key definitions include:
    * `Flag`
    * `Flags`
    * `Flags.has`
    * `Flags.assign`
    * `Flags.untouched`
-/

------------------------------------------------------------
-- Single Flags
------------------------------------------------------------

namespace OverlayCache

/-
  One lifecycle concern.

  `changed` is up from the first write of a transaction to
  its end, `created` says that the key did not exist before,
  `removed` that it is to go, `valid` that the value may be
  used, `lockPlaceholder` that the entry only stands in for a
  lock, and `evicted` that the container gave the key up.
-/
inductive Flag where
| changed
| created
| removed
| valid
| lockPlaceholder
| evicted
deriving DecidableEq, Repr

namespace Flag

/- Every flag, in the order in which they are shown. -/
def all : List Flag :=
  [.changed, .created, .removed, .valid,
    .lockPlaceholder, .evicted]

/- The field name of a flag in debug texts. -/
def label : Flag → String
| .changed => "changed"
| .created => "created"
| .removed => "removed"
| .valid => "valid"
| .lockPlaceholder => "lock_placeholder"
| .evicted => "evicted"

end Flag

end OverlayCache

------------------------------------------------------------
-- Flag Sets
------------------------------------------------------------

namespace OverlayCache

/- The flags of an entry, each up or down. -/
structure Flags where
  changed : Bool := false
  created : Bool := false
  removed : Bool := false
  valid : Bool := false
  lockPlaceholder : Bool := false
  evicted : Bool := false
deriving DecidableEq, Repr

namespace Flags

/- No flag is up. -/
def none : Flags := {}

/- The shape of an untouched entry: only `valid` is up. -/
def untouched : Flags := { valid := true }

/- Whether a flag is up. -/
def has (flags : Flags) : Flag → Bool
| .changed => flags.changed
| .created => flags.created
| .removed => flags.removed
| .valid => flags.valid
| .lockPlaceholder => flags.lockPlaceholder
| .evicted => flags.evicted

/- Raise or lower one flag. -/
def assign
    (flags : Flags)
    (flag : Flag)
    (on : Bool) : Flags :=
  match flag with
  | .changed => { flags with changed := on }
  | .created => { flags with created := on }
  | .removed => { flags with removed := on }
  | .valid => { flags with valid := on }
  | .lockPlaceholder => { flags with lockPlaceholder := on }
  | .evicted => { flags with evicted := on }

/- Raise one flag. -/
def raise (flags : Flags) (flag : Flag) : Flags :=
  flags.assign flag true

/- Lower one flag. -/
def lower (flags : Flags) (flag : Flag) : Flags :=
  flags.assign flag false

instance : Outlined Flags where
  outline flags :=
    .record "EntryFlags"
      (Flag.all.map
        (fun f => (f.label, outline (flags.has f))))

end Flags

end OverlayCache

------------------------------------------------------------
-- Reading Assigned Flags
------------------------------------------------------------

namespace OverlayCache

namespace Flags

/- An assignment moves its own flag and no other. -/
@[simp] theorem has_assign
    (flags : Flags)
    (f g : Flag)
    (on : Bool) :
    (flags.assign f on).has g =
      if g = f then on else flags.has g := by
  cases f <;> cases g <;> rfl

@[simp] theorem has_raise
    (flags : Flags)
    (f g : Flag) :
    (flags.raise f).has g =
      if g = f then true else flags.has g :=
  flags.has_assign f g true

@[simp] theorem changed_raise_changed (flags : Flags) :
    (flags.raise .changed).changed = true := rfl

@[simp] theorem removed_raise_changed (flags : Flags) :
    (flags.raise .changed).removed = flags.removed := rfl

@[simp] theorem valid_raise_changed (flags : Flags) :
    (flags.raise .changed).valid = flags.valid := rfl

@[simp] theorem evicted_raise_changed (flags : Flags) :
    (flags.raise .changed).evicted = flags.evicted := rfl

@[simp] theorem created_raise_changed (flags : Flags) :
    (flags.raise .changed).created = flags.created := rfl

/- Raising a flag that is up does nothing. -/
theorem raise_of_has
    {flags : Flags}
    {f : Flag}
    (hUp : flags.has f = true) :
    flags.raise f = flags := by
  cases flags
  cases f <;> simp_all [raise, assign, has]

end Flags

end OverlayCache
