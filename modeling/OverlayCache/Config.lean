import OverlayCache.Text.Outline

/-
  Settings of a layer.

  A strict layer refuses deltas while its key is removed or
  not valid.  A traced layer reports every delta it accepts.

  Key definitions include:
    * `Config`
    * `Config.setStrict`
    * `Config.setTraced`
-/

namespace OverlayCache

/- The settings, lenient and traced unless told otherwise. -/
structure Config where
  strict : Bool := false
  traced : Bool := true
deriving DecidableEq, Repr

namespace Config

/- Choose whether misuse is refused. -/
def setStrict (config : Config) (on : Bool) : Config :=
  { config with strict := on }

/- Choose whether accepted deltas are reported. -/
def setTraced (config : Config) (on : Bool) : Config :=
  { config with traced := on }

instance : Outlined Config where
  outline config :=
    .record "EntryConfig"
      [("strict", outline config.strict),
        ("trace_operations", outline config.traced)]

end Config

end OverlayCache
