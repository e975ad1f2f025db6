import OverlayCache.Proofs.Tracing.Spots

/-
  Steps that are taken on two sides.

  The sides are two workspaces of some kind, of which the
  quiet one is the loud one with a layer muted.  The kind says
  how a step is taken, how it is taken on the quiet side, and
  where the layer is afterwards.  If it is lawful, so that
  every step agrees on both sides, then whole runs agree too,
  and what the quiet side leaves unreported are the deltas
  that the layer takes in, and these alone.

  Key definitions include:
    * `Muting`
    * `Pair`
    * `Muting.Alike`
    * `Muting.Agree`
    * `Muting.sideBySide`
    * `Muting.Lawful`

  The main statements are:
    * `Muting.Alike.agree`
    * `Muting.Lawful.agree_of_mem`
    * `Muting.Lawful.shows_in_appends_only`
-/

------------------------------------------------------------
-- Pairs Of Turns
------------------------------------------------------------

namespace OverlayCache

/-
  A kind of workspace in which a layer can be muted.  A step
  leaves a turn, which has a workspace, events and a reply.
-/
structure Muting (W S T R K V δ ω : Type) where
  step : W → S → T
  workspace : T → W
  events : T → List (Event K δ)
  reply : T → R
  entry? : W → String → Option (Entry K V δ ω)
  -- the entry that a step appends to, and the delta
  append? : S → Option (String × δ)
  -- whether a reply is that of an accepted call
  isAccepted : R → Bool
  -- the step that makes the layer, on the quiet side
  untraced : S → S
  madeAt : W → S → Option Spot
  -- a later step, on the quiet side
  muteAt : Option Spot → S → S
  follow : W → Option Spot → S → Option Spot
  MutedAt : Option Spot → W → W → Prop

/-
  A step that is taken on two sides, with where the layer is
  before it and after it.
-/
structure Pair (S T : Type) where
  step : S
  spot : Option Spot
  after : Option Spot
  loud : T
  quiet : T

namespace Muting

variable {W S T R K V δ ω : Type}

/- Whether a step appends a delta to the layer. -/
def appendsAt
    (m : Muting W S T R K V δ ω)
    (spot : Option Spot)
    (s : S) : Bool :=
  match m.append? s with
  | some (name, _) => decide (spot = some ⟨name, 0⟩)
  | none => false

/- Whether the layer takes in a delta. -/
def takesIn
    (m : Muting W S T R K V δ ω)
    (p : Pair S T) : Bool :=
  m.appendsAt p.spot p.step && m.isAccepted (m.reply p.loud)

/-
  The events of the loud side, but for those that report what
  the layer takes in.
-/
def kept
    (m : Muting W S T R K V δ ω)
    (p : Pair S T) : List (Event K δ) :=
  if m.takesIn p then
    Event.unappended (m.events p.loud)
  else
    m.events p.loud

/- Two turns are answered and reported alike. -/
structure Alike
    (m : Muting W S T R K V δ ω)
    (spot : Option Spot)
    (t u : T) : Prop where
  workspace : m.MutedAt spot (m.workspace t) (m.workspace u)
  events : m.events u = m.events t
  reply : m.reply u = m.reply t

/-
  Two sides agree when they answer the same, report the same
  but for what the layer takes in, and leave the same behind
  but for its tracing.  While the layer is traced it reports
  every delta once that it takes in.
-/
structure Agree
    (m : Muting W S T R K V δ ω)
    (p : Pair S T) : Prop where
  reply : m.reply p.quiet = m.reply p.loud
  events : m.events p.quiet = m.kept p
  workspace :
    m.MutedAt p.after (m.workspace p.loud)
      (m.workspace p.quiet)
  reported :
    ∀ (name : String) (d : δ),
      m.append? p.step = some (name, d) →
        p.spot = some ⟨name, 0⟩ →
          m.isAccepted (m.reply p.loud) = true →
            ∃ (e : Entry K V δ ω) (l : Layer K V δ ω),
              m.entry? (m.workspace p.loud) name = some e ∧
                e.top? = some l ∧
                m.events p.loud =
                  if l.config.traced then
                    [.deltaAppended l.key l.pending.length d]
                  else
                    []

/- One step on two sides. -/
def pair
    (m : Muting W S T R K V δ ω)
    (v w : W)
    (spot : Option Spot)
    (s : S) : Pair S T where
  step := s
  spot := spot
  after := m.follow v spot s
  loud := m.step v s
  quiet := m.step w (m.muteAt spot s)

/- The steps of a run on two sides, with what came of them. -/
def sideBySide
    (m : Muting W S T R K V δ ω)
    (v w : W)
    (spot : Option Spot) : List S → List (Pair S T)
| [] => []
| s :: steps =>
    let p := m.pair v w spot s
    p ::
      m.sideBySide (m.workspace p.loud) (m.workspace p.quiet)
        p.after steps

/- The step that makes the layer, and each one after it. -/
structure Lawful (m : Muting W S T R K V δ ω) : Prop where
  makes :
    ∀ (w : W) (s : S),
      m.Alike (m.madeAt w s) (m.step w s)
        (m.step w (m.untraced s))
  agrees :
    ∀ {v w : W} {spot : Option Spot},
      m.MutedAt spot v w →
        ∀ s : S, m.Agree (m.pair v w spot s)

end Muting

end OverlayCache

------------------------------------------------------------
-- Runs On Two Sides
------------------------------------------------------------

namespace OverlayCache

namespace Muting

variable {W S T R K V δ ω : Type}
variable {m : Muting W S T R K V δ ω}

/- If nothing is taken in, there is nothing to leave out. -/
theorem Alike.agree
    {p : Pair S T}
    (h : m.Alike p.after p.loud p.quiet)
    (hNone : m.takesIn p = false) :
    m.Agree p := by
  have hKept : m.kept p = m.events p.loud := by
    simp [kept, hNone]
  refine ⟨h.reply, h.events.trans hKept.symm, h.workspace, ?_⟩
  intro name d hAppend hSpot hDone
  have hTaken : m.takesIn p = true := by
    simp [takesIn, appendsAt, hAppend, hSpot, hDone]
  rw [hNone] at hTaken
  cases hTaken

namespace Lawful

/- All steps of a run agree on both sides. -/
theorem agree_of_mem
    (hLawful : m.Lawful)
    {v w : W}
    {spot : Option Spot}
    (h : m.MutedAt spot v w)
    {steps : List S}
    {p : Pair S T}
    (hMem : p ∈ m.sideBySide v w spot steps) :
    m.Agree p := by
  induction steps generalizing v w spot with
  | nil => cases hMem
  | cons s steps ih =>
      have hStep := hLawful.agrees h s
      rcases List.mem_cons.mp hMem with rfl | hLater
      · exact hStep
      · exact ih hStep.workspace hLater

/-
  A layer is made with tracing on one side and without it on
  the other, and then the same steps are taken on both.
-/
theorem shows_in_appends_only
    (hLawful : m.Lawful)
    (w : W)
    (make : S)
    (steps : List S) :
    let loud := m.step w make
    let quiet := m.step w (m.untraced make)
    let spot := m.madeAt w make
    let pairs :=
      m.sideBySide (m.workspace loud) (m.workspace quiet) spot
        steps
    m.Alike spot loud quiet ∧
      (∀ p ∈ pairs, m.Agree p) ∧
      pairs.flatMap (fun p => m.events p.quiet) =
        pairs.flatMap m.kept := by
  intro loud quiet spot pairs
  have hMade : m.Alike spot loud quiet := hLawful.makes w make
  have hAgree : ∀ p ∈ pairs, m.Agree p :=
    fun p hMem => hLawful.agree_of_mem hMade.workspace hMem
  refine ⟨hMade, hAgree, List.flatMap_congr ?_⟩
  exact fun p hMem => (hAgree p hMem).events

end Lawful

end Muting

end OverlayCache
