import OverlayCache.Proofs.Tracing.Pairs
import OverlayCache.Workspace.Basic

/-
  Two runs that differ in the tracing of one layer.

  The same steps are taken in two workspaces, of which the
  quiet one makes a layer without tracing, and changes its
  settings without turning its tracing on.  All that a step
  answers and leaves behind is the same on both sides, but for
  the tracing of the layer.  What the quiet side does not
  report are the deltas that the layer takes in, and these
  alone.

  Key definitions include:
    * `Workspace.MutedAt`
    * `Workspace.follow`
    * `Workspace.muting`

  The main statements are:
    * `Workspace.MutedAt.callEntry`
    * `Workspace.MutedAt.agree`
    * `Workspace.lawful_muting`
-/

------------------------------------------------------------
-- Workspaces With A Muted Layer
------------------------------------------------------------

namespace OverlayCache

namespace Workspace

variable {K V δ ω σ : Type} [Ord K]

/- The second workspace is the first with a layer muted. -/
structure MutedAt
    (spot : Option Spot)
    (v w : Workspace K V δ ω σ) : Prop where
  containers : w.containers = v.containers
  store : w.store = v.store
  entries :
    ∀ name : String,
      w.entry? name = (v.entry? name).map (Spot.mute spot name)

/-
  Where a layer is after a step.  It goes down when its entry
  is wrapped, and is lost with the name of its entry.
-/
def follow
    (w : Workspace K V δ ω σ)
    (spot : Option Spot) : Step K V δ → Option Spot
| .plain name _ _ _ _ => Spot.without name spot
| .alone name _ _ _ => Spot.without name spot
| .wrap name _ _ _ below =>
    match w.entry? below with
    | some _ => Spot.lift name below spot
    | none => spot
| .copy name source =>
    match w.entry? source with
    | some (.plain _) => Spot.without name spot
    | _ => spot
| _ => spot

/- Where the layer is that a step makes, if it makes one. -/
def madeAt (w : Workspace K V δ ω σ) :
    Step K V δ → Option Spot
| .alone name _ _ _ => some ⟨name, 0⟩
| .wrap name _ _ _ below =>
    (w.entry? below).map (fun _ => ⟨name, 0⟩)
| _ => none

namespace Step

/- The step with the tracing of the layer it makes off. -/
def untraced : Step K V δ → Step K V δ
| .alone name key value config =>
    .alone name key value (config.setTraced false)
| .wrap name key value config below =>
    .wrap name key value (config.setTraced false) below
| s => s

/-
  The step as it is taken on the quiet side: settings that are
  given to the layer leave its tracing off.
-/
def muteAt (spot : Option Spot) : Step K V δ → Step K V δ
| .callEntry name c =>
    .callEntry name (Spot.muteCall spot name c)
| s => s

/- The entry that a step appends to, and the delta. -/
def append? : Step K V δ → Option (String × δ)
| .callEntry name (.append d) => some (name, d)
| _ => none

omit [Ord K] in
theorem append?_eq_some
    {s : Step K V δ}
    {name : String}
    {d : δ} :
    s.append? = some (name, d) ↔
      s = .callEntry name (.append d) := by
  constructor
  · intro hAppend
    cases s with
    | callEntry other c =>
        cases c with
        | append d' =>
            cases hAppend
            rfl
        | _ => cases hAppend
    | _ => cases hAppend
  · rintro rfl
    rfl

end Step

/- Whether an answer is that of a call that was accepted. -/
def Reply.isAccepted : Reply V → Bool
| .entry .done => true
| _ => false

theorem Reply.eq_of_isAccepted
    {reply : Reply V}
    (hAccepted : reply.isAccepted = true) :
    reply = .entry .done := by
  unfold isAccepted at hAccepted
  split at hAccepted
  · rfl
  · cases hAccepted

/- How a layer of a workspace is muted. -/
def muting
    [Std.TransOrd K] [Delta δ ω] [Holding V σ δ] :
    Muting (Workspace K V δ ω σ) (Step K V δ)
      (Turn K V δ ω σ) (Reply V) K V δ ω where
  step := step
  workspace := Turn.workspace
  events := Turn.events
  reply := Turn.reply
  entry? := entry?
  append? := Step.append?
  isAccepted := Reply.isAccepted
  untraced := Step.untraced
  madeAt := madeAt
  muteAt := Step.muteAt
  follow := follow
  MutedAt := MutedAt

end Workspace

end OverlayCache

------------------------------------------------------------
-- Steps On Two Sides
------------------------------------------------------------

namespace OverlayCache

/- A delta that is not accepted leaves nothing to delete. -/
theorem Entry.unappended_call
    {K V δ ω : Type}
    [Delta δ ω]
    (e : Entry K V δ ω)
    (c : Entry.Call V δ)
    (there : Bool) :
    (if (there && c.isAppend) = true then
        Event.unappended (e.call c).events
      else
        (e.call c).events) =
      if (there && c.isAppend &&
          Workspace.Reply.isAccepted
            (.entry (e.call c).reply)) = true then
        Event.unappended (e.call c).events
      else
        (e.call c).events := by
  cases c with
  | append d =>
      by_cases hDone : (e.append d).reply = .done
      · simp [Entry.call, hDone,
          Workspace.Reply.isAccepted]
      · have hKept := Entry.unappended_of_not_done hDone
        simp only [Entry.call, hKept, ite_self]
  | _ => simp [Entry.Call.isAppend]

namespace Workspace

variable {K V δ ω σ : Type} [Ord K]

namespace MutedAt

variable {v w : Workspace K V δ ω σ} {spot : Option Spot}

theorem refl (w : Workspace K V δ ω σ) :
    MutedAt none w w := by
  refine ⟨rfl, rfl, ?_⟩
  intro name
  cases w.entry? name <;> rfl

/- A name stands for nothing on either side, or is muted. -/
theorem entry?_cases
    (h : v.MutedAt spot w)
    (name : String) :
    (v.entry? name = none ∧ w.entry? name = none) ∨
      ∃ e : Entry K V δ ω,
        v.entry? name = some e ∧
          w.entry? name = some (Spot.mute spot name e) := by
  have hEntry := h.entries name
  cases hV : v.entry? name with
  | none =>
      rw [hV] at hEntry
      exact Or.inl ⟨rfl, hEntry⟩
  | some e =>
      rw [hV] at hEntry
      exact Or.inr ⟨e, rfl, hEntry⟩

theorem container?_eq
    (h : v.MutedAt spot w)
    (name : String) :
    w.container? name = v.container? name := by
  unfold container?
  rw [h.containers]

theorem keepContainer
    (h : v.MutedAt spot w)
    (name : String)
    (c : Container K V) :
    (v.keepContainer name c).MutedAt spot
      (w.keepContainer name c) where
  containers := by
    simp only [Workspace.keepContainer, h.containers]
  store := h.store
  entries := h.entries

theorem withStore
    (h : v.MutedAt spot w)
    (s : σ) :
    MutedAt spot { v with store := s } { w with store := s } :=
  ⟨h.containers, rfl, h.entries⟩

/- A name is kept for what became of its entry. -/
theorem keepEntry
    (h : v.MutedAt spot w)
    (name : String)
    (e : Entry K V δ ω) :
    (v.keepEntry name e).MutedAt spot
      (w.keepEntry name (Spot.mute spot name e)) where
  containers := h.containers
  store := h.store
  entries other := by
    rw [entry?_keepEntry, entry?_keepEntry]
    by_cases hName : other = name
    · simp [hName]
    · simp only [hName, if_false]
      exact h.entries other

/- A name is given to another entry. -/
theorem giveEntry
    (h : v.MutedAt spot w)
    (name : String)
    (e : Entry K V δ ω) :
    (v.keepEntry name e).MutedAt (Spot.without name spot)
      (w.keepEntry name e) where
  containers := h.containers
  store := h.store
  entries other := by
    rw [entry?_keepEntry, entry?_keepEntry]
    by_cases hName : other = name
    · subst hName
      simp [Spot.mute_without]
    · simp only [hName, if_false, h.entries other]
      cases v.entry? other with
      | none => rfl
      | some f =>
          exact
            congrArg some
              (Spot.mute_without_of_ne spot hName f).symm

/- A layer is made on both sides, and muted on one. -/
theorem made
    (w : Workspace K V δ ω σ)
    (name : String)
    (e : Entry K V δ ω) :
    (w.keepEntry name e).MutedAt (some ⟨name, 0⟩)
      (w.keepEntry name (e.mute 0)) where
  containers := rfl
  store := rfl
  entries other := by
    rw [entry?_keepEntry, entry?_keepEntry]
    by_cases hName : other = name
    · simp [hName, Spot.mute]
    · cases w.entry? other with
      | none => simp [hName]
      | some f => simp [hName, Spot.mute]

/- A layer is put over an entry, which loses its name. -/
theorem wrapEntry
    (h : v.MutedAt spot w)
    (name below : String)
    (l : Layer K V δ ω)
    (e : Entry K V δ ω) :
    ((v.dropEntry below).keepEntry name
        (.stacked l e)).MutedAt (Spot.lift name below spot)
      ((w.dropEntry below).keepEntry name
        (.stacked l (Spot.mute spot below e))) where
  containers := h.containers
  store := h.store
  entries other := by
    rw [entry?_keepEntry, entry?_keepEntry, entry?_dropEntry,
      entry?_dropEntry]
    by_cases hName : other = name
    · subst hName
      simp [Spot.mute_lift]
    · by_cases hBelow : other = below
      · rw [if_neg hName, if_neg hName, if_pos hBelow,
          if_pos hBelow]
        rfl
      · simp only [hName, hBelow, if_false, h.entries other]
        cases v.entry? other with
        | none => rfl
        | some f =>
            exact
              congrArg some
                (Spot.mute_lift_of_ne spot hName hBelow
                  f).symm

end MutedAt

variable [Std.TransOrd K] [Delta δ ω] [Holding V σ δ]

/- What is kept of the events of a call. -/
theorem kept_callEntry
    (v w : Workspace K V δ ω σ)
    (spot : Option Spot)
    (name : String)
    (c : Entry.Call V δ) :
    let t := v.callEntry name c
    muting.kept (muting.pair v w spot (.callEntry name c)) =
      if decide (spot = some ⟨name, 0⟩) && c.isAppend &&
          t.reply.isAccepted then
        Event.unappended t.events
      else
        t.events := by
  cases c with
  | append d =>
      simp only [Entry.Call.isAppend, Bool.and_true]
      rfl
  | _ =>
      simp only [Entry.Call.isAppend, Bool.and_false]
      rfl

namespace MutedAt

variable {v w : Workspace K V δ ω σ} {spot : Option Spot}

theorem callContainer
    (h : v.MutedAt spot w)
    (name : String)
    (c : Container.Call K V) :
    muting.Alike spot (v.callContainer name c)
      (w.callContainer name c) := by
  unfold Workspace.callContainer
  rw [h.container?_eq name]
  cases v.container? name with
  | none => exact ⟨h, rfl, rfl⟩
  | some d => exact ⟨h.keepContainer name _, rfl, rfl⟩

theorem wrap
    (h : v.MutedAt spot w)
    (name below : String)
    (key : K)
    (value : Option V)
    (config : Config)
    (l : Layer K V δ ω) :
    muting.Alike
      (v.follow spot (.wrap name key value config below))
      (v.wrap name l below) (w.wrap name l below) := by
  unfold Workspace.wrap follow
  rcases h.entry?_cases below with ⟨hV, hW⟩ | ⟨e, hV, hW⟩
  · simp only [hV, hW]
    exact ⟨h, rfl, rfl⟩
  · simp only [hV, hW]
    exact ⟨h.wrapEntry name below l e, rfl, rfl⟩

/- Copies are of plain entries, which have no layers. -/
theorem copy
    (h : v.MutedAt spot w)
    (name source : String) :
    muting.Alike (v.follow spot (.copy name source))
      (v.copy name source) (w.copy name source) := by
  have hAbsent :
      ∀ (u : Workspace K V δ ω σ) (e : Entry K V δ ω),
        u.entry? source = some e →
          (∀ p : Plain K V, e ≠ .plain p) →
            u.copy name source = u.absent ∧
              u.follow spot (.copy name source) = spot := by
    intro u e hEntry hLayer
    cases e with
    | plain p => exact absurd rfl (hLayer p)
    | alone l => simp [Workspace.copy, follow, hEntry]
    | stacked l below => simp [Workspace.copy, follow, hEntry]
  rcases h.entry?_cases source with ⟨hV, hW⟩ | ⟨e, hV, hW⟩
  · simp only [Workspace.copy, follow, hV, hW]
    exact ⟨h, rfl, rfl⟩
  · by_cases hPlain : ∃ p : Plain K V, e = .plain p
    · rcases hPlain with ⟨p, rfl⟩
      rw [Spot.mute_plain] at hW
      simp only [Workspace.copy, follow, hV, hW]
      exact ⟨h.giveEntry name _, rfl, rfl⟩
    · have hLayer : ∀ p : Plain K V, e ≠ .plain p :=
        fun p hEq => hPlain ⟨p, hEq⟩
      have hMuted := Spot.mute_ne_plain spot source hLayer
      rcases hAbsent v e hV hLayer with ⟨hLoud, hFollow⟩
      rw [hLoud, hFollow, (hAbsent w _ hW hMuted).1]
      exact ⟨h, rfl, rfl⟩

/- A call of an entry, the muted layer in it or not. -/
theorem callEntry
    (h : v.MutedAt spot w)
    (name : String)
    (c : Entry.Call V δ) :
    muting.Agree (muting.pair v w spot (.callEntry name c)) := by
  let loud := v.callEntry name c
  let quiet := w.callEntry name (Spot.muteCall spot name c)
  rcases h.entry?_cases name with ⟨hV, hW⟩ | ⟨e, hV, hW⟩
  · have hLoud : loud = v.absent := by
      simp only [loud, Workspace.callEntry, hV]
    have hQuiet : quiet = w.absent := by
      simp only [quiet, Workspace.callEntry, hW]
    have hAlike : muting.Alike spot loud quiet := by
      rw [hLoud, hQuiet]
      exact ⟨h, rfl, rfl⟩
    have hMissing : loud.reply.isAccepted = false := by
      rw [hLoud]
      rfl
    apply hAlike.agree
    exact Bool.and_eq_false_imp.mpr (fun _ => hMissing)
  · have hLoud : loud = _ := callEntry_eq hV c
    have hQuiet : quiet = _ :=
      callEntry_eq hW (Spot.muteCall spot name c)
    rw [Spot.call_mute] at hQuiet
    have hReply : quiet.reply = loud.reply := by
      rw [hLoud, hQuiet]
    have hKept :
        quiet.events =
          muting.kept
            (muting.pair v w spot (.callEntry name c)) := by
      rw [kept_callEntry, hQuiet]
      simp only [callEntry_eq hV]
      exact e.unappended_call c _
    have hMuted :
        loud.workspace.MutedAt spot quiet.workspace := by
      rw [hLoud, hQuiet]
      exact h.keepEntry name _
    refine ⟨hReply, hKept, hMuted, ?_⟩
    intro other d hAppend _ hAccepted
    cases Step.append?_eq_some.mp hAppend
    have hDone : loud.reply = .entry .done :=
      Reply.eq_of_isAccepted hAccepted
    rw [hLoud] at hDone
    rcases Entry.events_of_done (Reply.entry.inj hDone) with
      ⟨l, hTop, hEvents⟩
    have hEntry :
        loud.workspace.entry? name =
          some (e.append d).entry := by
      rw [hLoud, entry?_keepEntry, if_pos rfl]
      rfl
    have hReported : loud.events = (e.append d).events := by
      rw [hLoud]
      rfl
    exact
      ⟨(e.append d).entry, l, hEntry, hTop,
        hReported.trans hEvents⟩

theorem commit
    (h : v.MutedAt spot w)
    (entry container : String)
    (version : Option Version) :
    muting.Alike spot (v.commit entry container version)
      (w.commit entry container version) := by
  unfold Workspace.commit
  rw [h.container?_eq container, h.store]
  rcases h.entry?_cases entry with ⟨hV, hW⟩ | ⟨e, hV, hW⟩
  · simp only [hV, hW]
    exact ⟨h, rfl, rfl⟩
  · simp only [hV, hW]
    cases v.container? container with
    | none => exact ⟨h, rfl, rfl⟩
    | some c =>
        simp only [Spot.commit_mute]
        let o := e.commit c v.store version
        have hKept :=
          (h.withStore o.store).keepEntry entry o.entry
        exact ⟨hKept.keepContainer container _, rfl, rfl⟩

/- Every step agrees on both sides. -/
theorem agree
    (h : v.MutedAt spot w)
    (s : Step K V δ) :
    muting.Agree (muting.pair v w spot s) := by
  cases s with
  | container name limit =>
      exact
        Muting.Alike.agree
          ⟨h.keepContainer name _, rfl, rfl⟩ rfl
  | callContainer name c =>
      exact Muting.Alike.agree (h.callContainer name c) rfl
  | plain name origin version lifespan maxIdle =>
      exact
        Muting.Alike.agree ⟨h.giveEntry name _, rfl, rfl⟩ rfl
  | alone name key value config =>
      exact
        Muting.Alike.agree ⟨h.giveEntry name _, rfl, rfl⟩ rfl
  | wrap name key value config below =>
      exact
        Muting.Alike.agree
          (h.wrap name below key value config _) rfl
  | copy name source =>
      exact Muting.Alike.agree (h.copy name source) rfl
  | callEntry name c => exact h.callEntry name c
  | commit entry container version =>
      exact
        Muting.Alike.agree (h.commit entry container version)
          rfl

end MutedAt

/- The step that makes the layer agrees on both sides. -/
theorem alike_untraced
    (w : Workspace K V δ ω σ)
    (s : Step K V δ) :
    muting.Alike (w.madeAt s) (w.step s)
      (w.step s.untraced) := by
  have hRefl (t : Turn K V δ ω σ) : muting.Alike none t t :=
    ⟨.refl t.workspace, rfl, rfl⟩
  cases s with
  | alone name key value config =>
      exact ⟨.made w name (.alone (.fresh key value config)),
        rfl, rfl⟩
  | wrap name key value config below =>
      simp only [step, wrap, madeAt, Step.untraced]
      cases w.entry? below with
      | none => exact hRefl _
      | some e =>
          exact
            ⟨.made (w.dropEntry below) name
                (.stacked (.fresh key value config) e),
              rfl, rfl⟩
  | _ => exact hRefl _

theorem lawful_muting :
    (muting (K := K) (V := V) (δ := δ) (ω := ω)
      (σ := σ)).Lawful where
  makes := alike_untraced
  agrees h := h.agree

end Workspace

end OverlayCache
