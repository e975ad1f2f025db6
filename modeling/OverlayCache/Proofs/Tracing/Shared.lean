import OverlayCache.Proofs.Tracing.SideBySide
import OverlayCache.Workspace.Shared

/-
  Two runs over shared maps that differ in one layer's tracing.

  An opener without tracing makes the same entry as one with
  it, but for a muted layer.  Handles are found alike on both
  sides, since muted entries hold the same handles, and so the
  maps behind them change alike.

  Key definitions include:
    * `SharedWorkspace.MutedAt`
    * `SharedWorkspace.muting`

  The main statements are:
    * `SharedWorkspace.MutedAt.agree`
    * `SharedWorkspace.lawful_muting`
    * `SharedWorkspace.tracing_shows_in_appends_only`
-/

------------------------------------------------------------
-- Shared Workspaces On Two Sides
------------------------------------------------------------

namespace OverlayCache

namespace SharedWorkspace

variable {K κ ν : Type} [Ord K] [Ord κ]

/- The second workspace is the first with a layer muted. -/
structure MutedAt
    (spot : Option Spot)
    (v w : SharedWorkspace K κ ν) : Prop where
  base : v.base.MutedAt spot w.base
  handles : w.handles = v.handles

namespace Step

/- The step with the tracing of the layer it makes off. -/
def untraced : Step K κ ν → Step K κ ν
| .base s => .base s.untraced
| .beginWrite entry container key opener =>
    .beginWrite entry container key
      ⟨opener.config.setTraced false⟩
| s => s

/- The step as it is taken on the quiet side. -/
def muteAt (spot : Option Spot) : Step K κ ν → Step K κ ν
| .base s => .base (s.muteAt spot)
| s => s

/- The entry that a step appends to, and the delta. -/
def append? : Step K κ ν → Option (String × MapDelta κ ν)
| .base s => s.append?
| _ => none

end Step

/- Whether an answer is that of a call that was accepted. -/
def Reply.isAccepted : Reply κ ν → Bool
| .base reply => reply.isAccepted
| _ => false

/- Where a layer is after a step. -/
def follow
    (w : SharedWorkspace K κ ν)
    (spot : Option Spot) : Step K κ ν → Option Spot
| .base s => w.base.follow spot s
| .beginWrite entry container _ _ =>
    match w.base.container? container with
    | some _ => Spot.without entry spot
    | none => spot
| _ => spot

/- Where the layer is that a step makes, if it makes one. -/
def madeAt (w : SharedWorkspace K κ ν) :
    Step K κ ν → Option Spot
| .base s => w.base.madeAt s
| .beginWrite entry container _ _ =>
    (w.base.container? container).map (fun _ => ⟨entry, 0⟩)
| _ => none

/- How a layer of a shared workspace is muted. -/
def muting [Std.TransOrd K] [Std.TransOrd κ] :
    Muting (SharedWorkspace K κ ν) (Step K κ ν) (Turn K κ ν)
      (Reply κ ν) K (MapHandle κ ν) (MapDelta κ ν)
      (TrackedMap κ ν) where
  step := step
  workspace := Turn.workspace
  events := Turn.events
  reply := Turn.reply
  entry? w := w.base.entry?
  append? := Step.append?
  isAccepted := Reply.isAccepted
  untraced := Step.untraced
  madeAt := madeAt
  muteAt := Step.muteAt
  follow := follow
  MutedAt := MutedAt

end SharedWorkspace

end OverlayCache

------------------------------------------------------------
-- Steps Of Shared Workspaces On Two Sides
------------------------------------------------------------

namespace OverlayCache

namespace SharedWorkspace

variable {K κ ν : Type} [Ord K] [Ord κ]

namespace MutedAt

variable {v w : SharedWorkspace K κ ν} {spot : Option Spot}

theorem handle?_eq
    (h : v.MutedAt spot w)
    (name : String) :
    w.handle? name = v.handle? name := by
  unfold SharedWorkspace.handle?
  rw [h.handles]

theorem withStore
    (h : v.MutedAt spot w)
    (s : Heap (TrackedMap κ ν)) :
    (v.withStore s).MutedAt spot (w.withStore s) :=
  ⟨h.base.withStore s, h.handles⟩

theorem keepHandle
    (h : v.MutedAt spot w)
    (name : String)
    (g : MapHandle κ ν) :
    (v.keepHandle name g).MutedAt spot (w.keepHandle name g) :=
  ⟨h.base, congrArg (fun hs => hs.insert name g) h.handles⟩

/- Handles are found on both sides alike. -/
theorem find?_eq
    [Std.TransOrd K]
    (h : v.MutedAt spot w)
    (source : Source K) :
    w.find? source = v.find? source := by
  cases source with
  | stored container key =>
      simp only [SharedWorkspace.find?, h.base.container?_eq]
  | value entry =>
      rcases h.base.entry?_cases entry with
        ⟨hV, hW⟩ | ⟨e, hV, hW⟩
      · simp [SharedWorkspace.find?, hV, hW]
      · simp [SharedWorkspace.find?, hV, hW]
  | snapshot entry =>
      rcases h.base.entry?_cases entry with
        ⟨hV, hW⟩ | ⟨e, hV, hW⟩
      · simp [SharedWorkspace.find?, hV, hW]
      · have hSnapshot := Spot.snapshot_mute spot entry e
        simpa [SharedWorkspace.find?, hV, hW] using hSnapshot
  | below entry =>
      rcases h.base.entry?_cases entry with
        ⟨hV, hW⟩ | ⟨e, hV, hW⟩
      · simp [SharedWorkspace.find?, hV, hW]
      · have hBelow := Spot.below_mute spot entry e
        simpa [SharedWorkspace.find?, hV, hW] using hBelow

variable [Std.TransOrd K] [Std.TransOrd κ]

/- Nothing has the name that is asked for on either side. -/
theorem absent (h : v.MutedAt spot w) :
    muting.Alike spot v.absent w.absent :=
  ⟨h, rfl, rfl⟩

/- The same entry is opened on both sides. -/
theorem beginWrite
    (h : v.MutedAt spot w)
    (entry container : String)
    (key : K)
    (opener : Opener) :
    muting.Alike
      (v.follow spot (.beginWrite entry container key opener))
      (v.beginWrite entry container key opener)
      (w.beginWrite entry container key opener) := by
  simp only [SharedWorkspace.beginWrite, follow,
    h.base.container?_eq, h.base.store]
  cases v.base.container? container with
  | none => exact h.absent
  | some c =>
      let o :
          Opened K (TrackedMap κ ν) (MapDelta κ ν)
            (TrackedMap κ ν) :=
        opener.beginWrite c v.base.store key
      refine ⟨⟨?_, h.handles⟩, rfl, rfl⟩
      exact (h.base.withStore o.store).giveEntry entry o.entry

/- A step that is none of the workspace below. -/
theorem otherStep
    (h : v.MutedAt spot w)
    {s : Step K κ ν}
    (hOther :
      ∀ s' : Workspace.Step K (MapHandle κ ν) (MapDelta κ ν),
        s ≠ .base s') :
    muting.Alike (v.follow spot s) (v.step s)
      (w.step (s.muteAt spot)) := by
  cases s with
  | base s => exact absurd rfl (hOther s)
  | beginWrite entry container key opener =>
      exact h.beginWrite entry container key opener
  | share name map =>
      simp only [Step.muteAt, SharedWorkspace.step,
        h.base.store]
      exact ⟨(h.withStore _).keepHandle name _, rfl, rfl⟩
  | copy name source =>
      simp only [Step.muteAt, SharedWorkspace.step,
        h.handle?_eq]
      cases v.handle? source with
      | none => exact h.absent
      | some g => exact ⟨h.keepHandle name g, rfl, rfl⟩
  | detach name source =>
      simp only [Step.muteAt, SharedWorkspace.step,
        SharedWorkspace.detach, h.handle?_eq, h.base.store]
      cases v.handle? source with
      | none => exact h.absent
      | some g =>
          exact ⟨(h.withStore _).keepHandle name _, rfl, rfl⟩
  | grab name source =>
      simp only [Step.muteAt, SharedWorkspace.step,
        h.find?_eq]
      cases v.find? source with
      | none => exact h.absent
      | some g => exact ⟨h.keepHandle name g, rfl, rfl⟩
  | call name c =>
      simp only [Step.muteAt, SharedWorkspace.step,
        SharedWorkspace.call, h.handle?_eq, h.base.store]
      cases v.handle? name with
      | none => exact h.absent
      | some g => exact ⟨h.withStore _, rfl, rfl⟩

/- A step of the workspace agrees as it does by itself. -/
theorem baseStep
    (h : v.MutedAt spot w)
    (s : Workspace.Step K (MapHandle κ ν) (MapDelta κ ν)) :
    muting.Agree (muting.pair v w spot (.base s)) := by
  have hStep := h.base.agree s
  exact
    { reply := congrArg Reply.base hStep.reply
      events := hStep.events
      workspace := ⟨hStep.workspace, h.handles⟩
      reported := hStep.reported }

/- Every step agrees on both sides. -/
theorem agree
    (h : v.MutedAt spot w)
    (s : Step K κ ν) :
    muting.Agree (muting.pair v w spot s) := by
  have hOther := h.otherStep (s := s)
  cases s with
  | base s => exact h.baseStep s
  | _ =>
      exact Muting.Alike.agree (hOther (by rintro _ ⟨⟩)) rfl

end MutedAt

end SharedWorkspace

end OverlayCache

------------------------------------------------------------
-- Runs Of Shared Workspaces On Two Sides
------------------------------------------------------------

namespace OverlayCache

/- An opener without tracing makes a layer that is muted. -/
theorem Opener.beginWrite_untraced
    {K α δ ω : Type}
    [Ord K] [Std.TransOrd K] [Delta δ ω] [Inhabited α]
    (o : Opener)
    (c : Container K (Handle α))
    (store : Heap α)
    (key : K) :
    (⟨o.config.setTraced false⟩ : Opener).beginWrite c store
        key =
      let t : Opened K α δ ω := o.beginWrite c store key
      { t with entry := t.entry.mute 0 } := by
  simp only [beginWrite]
  cases c.get? key with
  | none => rfl
  | some h => rfl

namespace SharedWorkspace

variable {K κ ν : Type} [Ord K] [Ord κ]
variable [Std.TransOrd K] [Std.TransOrd κ]

/- The step that makes the layer agrees on both sides. -/
theorem alike_untraced
    (w : SharedWorkspace K κ ν)
    (s : Step K κ ν) :
    muting.Alike (w.madeAt s) (w.step s)
      (w.step s.untraced) := by
  have hRefl (t : Turn K κ ν) : muting.Alike none t t :=
    ⟨⟨.refl t.workspace.base, rfl⟩, rfl, rfl⟩
  cases s with
  | base s =>
      have hStep := w.base.alike_untraced s
      exact
        ⟨⟨hStep.workspace, rfl⟩, hStep.events,
          congrArg Reply.base hStep.reply⟩
  | beginWrite entry container key opener =>
      simp only [step, beginWrite, madeAt, Step.untraced,
        Opener.beginWrite_untraced]
      cases w.base.container? container with
      | none => exact hRefl _
      | some c => exact ⟨⟨.made _ entry _, rfl⟩, rfl, rfl⟩
  | _ => exact hRefl _

theorem lawful_muting :
    (muting (K := K) (κ := κ) (ν := ν)).Lawful where
  makes := alike_untraced
  agrees h := h.agree

/-
  A layer is made by some step, with tracing on one side and
  without it on the other, and then the same steps are taken
  on both sides.  Every step is answered alike, and leaves the
  same containers, store, handles and entries behind, but for
  the tracing of the layer.  What the quiet side reports is
  what the loud side does, without the events of the deltas
  that the layer takes in, each of which has one.

  This holds in all workspaces, whatever values they have, and
  in those of shared maps with their openers and handles.
-/
theorem tracing_shows_in_appends_only :
    (∀ {K V δ ω σ : Type} [Ord K] [Std.TransOrd K]
        [Delta δ ω] [Holding V σ δ]
        (w : Workspace K V δ ω σ)
        (make : Workspace.Step K V δ)
        (steps : List (Workspace.Step K V δ)),
      let loud := w.step make
      let quiet := w.step make.untraced
      let spot := w.madeAt make
      let pairs :=
        Workspace.muting.sideBySide loud.workspace
          quiet.workspace spot steps
      Workspace.muting.Alike spot loud quiet ∧
        (∀ p ∈ pairs, Workspace.muting.Agree p) ∧
        pairs.flatMap (fun p => p.quiet.events) =
          pairs.flatMap Workspace.muting.kept) ∧
      ∀ {K κ ν : Type} [Ord K] [Ord κ]
        [Std.TransOrd K] [Std.TransOrd κ]
        (w : SharedWorkspace K κ ν)
        (make : Step K κ ν)
        (steps : List (Step K κ ν)),
      let loud := w.step make
      let quiet := w.step make.untraced
      let spot := w.madeAt make
      let pairs :=
        muting.sideBySide loud.workspace quiet.workspace spot
          steps
      muting.Alike spot loud quiet ∧
        (∀ p ∈ pairs, muting.Agree p) ∧
        pairs.flatMap (fun p => p.quiet.events) =
          pairs.flatMap muting.kept := by
  refine ⟨?_, ?_⟩
  · intro K V δ ω σ _ _ _ _ w make steps
    exact
      Workspace.lawful_muting.shows_in_appends_only w make
        steps
  · intro K κ ν _ _ _ _ w make steps
    exact lawful_muting.shows_in_appends_only w make steps

/-
  A delta is taken in by a layer that is opened on a container
  and another by the layer that is put over it, and both are
  committed.
-/
def wrappedSteps : List (Step Nat Nat Nat) :=
  [.base (.callEntry "e" (.append ⟨[.put 1 10]⟩)),
    .base (.wrap "f" 7 (some ⟨0⟩) {} "e"),
    .base (.callEntry "f" (.append ⟨[.put 2 20]⟩)),
    .base (.commit "f" "c" none)]

/-
  Without the tracing of the opened layer its own delta goes
  unreported, and nothing else does.
-/
theorem tracing_shows_in_appends_only_of_wrapped :
    let empty : SharedWorkspace Nat Nat Nat := {}
    let w := empty.run [.base (.container "c" none)]
    let make : Step Nat Nat Nat := .beginWrite "e" "c" 7 {}
    let spot := w.madeAt make
    let pairs :=
      muting.sideBySide (w.step make).workspace
        (w.step make.untraced).workspace spot wrappedSteps
    pairs.map (fun p => p.after) =
        [some ⟨"e", 0⟩, some ⟨"f", 1⟩, some ⟨"f", 1⟩,
          some ⟨"f", 1⟩] ∧
      pairs.flatMap (fun p => p.loud.events) =
        [.deltaAppended 7 1 ⟨[.put 1 10]⟩,
          .deltaAppended 7 1 ⟨[.put 2 20]⟩,
          .publishing 7 none, .replayed 7 1, .replayed 7 1] ∧
      pairs.flatMap (fun p => p.quiet.events) =
        [.deltaAppended 7 1 ⟨[.put 2 20]⟩,
          .publishing 7 none, .replayed 7 1, .replayed 7 1] ∧
      ∀ p ∈ pairs, muting.Agree p := by
  intro empty w make spot pairs
  rcases tracing_shows_in_appends_only.2 w make wrappedSteps
    with ⟨_, hAgree, hEvents⟩
  refine
    ⟨by decide +kernel, by decide +kernel, ?_, hAgree⟩
  exact hEvents.trans (by decide +kernel)

end SharedWorkspace

end OverlayCache
