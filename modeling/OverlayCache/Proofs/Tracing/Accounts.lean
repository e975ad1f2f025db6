import OverlayCache.Proofs.Lifecycle.Strict

/-
  What the events of a layer tell of its deltas.

  A delta that was taken in is pending until a commit replays
  it or a rollback discards it, and both report how many
  deltas they dispose of.  So the events of a run account for
  every delta that was taken in, as long as the layer has a
  live value to replay into.  What is refused, be it a delta
  or a commit, moves none.

  Key definitions include:
    * `Event.isQuiet`
    * `Event.replayedIn`
    * `Event.discardedIn`
    * `Layer.Turned`
    * `Site.takenIn`

  The main statements are:
    * `Entry.turned_call`
    * `Entry.turned_commit`
    * `Layer.Turned.balance`
    * `Site.events_account_for_deltas`
-/

------------------------------------------------------------
-- Events About Deltas
------------------------------------------------------------

namespace OverlayCache

namespace Event

variable {K δ : Type}

/- How many deltas an event reports to be replayed. -/
def replays : Event K δ → Nat
| .replayed _ count => count
| _ => 0

/- How many deltas an event reports to be discarded. -/
def discards : Event K δ → Nat
| .discarded _ count => count
| _ => 0

/- Whether an event reports a delta that was taken in. -/
def isAppended : Event K δ → Bool
| .deltaAppended _ _ _ => true
| _ => false

/- Whether an event tells nothing of pending deltas. -/
def isQuiet : Event K δ → Bool
| .deltaAppended _ _ _ => false
| .replayed _ _ => false
| .discarded _ _ => false
| _ => true

/- What each event counts, added up. -/
@[simp] def tally (count : Event K δ → Nat) :
    List (Event K δ) → Nat
| [] => 0
| event :: events => count event + tally count events

/- How many deltas events report to be replayed. -/
def replayedIn (events : List (Event K δ)) : Nat :=
  tally replays events

/- How many deltas events report to be discarded. -/
def discardedIn (events : List (Event K δ)) : Nat :=
  tally discards events

theorem tally_append
    (count : Event K δ → Nat)
    (events more : List (Event K δ)) :
    tally count (events ++ more) =
      tally count events + tally count more := by
  induction events with
  | nil => simp [tally]
  | cons event events ih =>
      simp only [List.cons_append, tally, ih, Nat.add_assoc]

theorem tally_eq_zero
    {count : Event K δ → Nat}
    {events : List (Event K δ)}
    (hNone : ∀ event ∈ events, count event = 0) :
    tally count events = 0 := by
  induction events with
  | nil => rfl
  | cons event events ih =>
      rw [List.forall_mem_cons] at hNone
      simp only [tally, hNone.1, ih hNone.2]

@[simp] theorem replayedIn_append
    (events more : List (Event K δ)) :
    replayedIn (events ++ more) =
      replayedIn events + replayedIn more :=
  tally_append replays events more

@[simp] theorem discardedIn_append
    (events more : List (Event K δ)) :
    discardedIn (events ++ more) =
      discardedIn events + discardedIn more :=
  tally_append discards events more

/- Quiet events tell of no delta. -/
theorem counts_of_quiet
    {events : List (Event K δ)}
    (hQuiet : ∀ event ∈ events, event.isQuiet = true) :
    replayedIn events = 0 ∧
      discardedIn events = 0 ∧
      ∀ event ∈ events, event.isAppended = false := by
  have hEach :
      ∀ event ∈ events,
        event.replays = 0 ∧
          event.discards = 0 ∧ event.isAppended = false := by
    intro event hMem
    have hEvent := hQuiet event hMem
    cases event with
    | deltaAppended key pending delta => cases hEvent
    | replayed key count => cases hEvent
    | discarded key count => cases hEvent
    | _ => exact ⟨rfl, rfl, rfl⟩
  exact
    ⟨tally_eq_zero (fun event hMem => (hEach event hMem).1),
      tally_eq_zero (fun event hMem => (hEach event hMem).2.1),
      fun event hMem => (hEach event hMem).2.2⟩

end Event

/- What a plain entry publishes is no matter of deltas. -/
theorem Publication.isQuiet_events
    {K V δ : Type}
    (p : Publication V)
    (key : K)
    (version : Option Version) :
    ∀ event ∈ p.events (δ := δ) key version,
      event.isQuiet = true := by
  cases p with
  | nothing => simp [events]
  | removal => simp [events, Event.isQuiet]
  | put value => simp [events, Event.isQuiet]

theorem Refusal.isQuiet_events
    {K δ : Type}
    (refusal : Refusal) :
    ∀ event ∈ refusal.events (K := K) (δ := δ),
      event.isQuiet = true := by
  cases refusal with
  | full limit => simp [events, Event.isQuiet]
  | closed => simp [events]

theorem Plain.isQuiet_commit
    {γ K V δ : Type} [Repository γ K V]
    (p : Plain K V)
    (c : γ)
    (version : Option Version) :
    ∀ event ∈ (p.commit (δ := δ) c version).events,
      event.isQuiet = true := by
  simp only [commit]
  split
  · split
    · intro event hMem
      rcases List.mem_append.mp hMem with hMem | hMem
      · exact Publication.isQuiet_events _ _ _ event hMem
      · exact Refusal.isQuiet_events _ event hMem
    · exact Publication.isQuiet_events _ _ _
  · simp

theorem Plain.isQuiet_rollback
    {K V δ : Type}
    (p : Plain K V) :
    ∀ event ∈ (p.rollback (δ := δ)).2,
      event.isQuiet = true := by
  unfold rollback
  split
  · simp
  · simp [Event.isQuiet]

end OverlayCache

------------------------------------------------------------
-- What Becomes Of A Layer
------------------------------------------------------------

namespace OverlayCache

namespace Layer

variable {K V δ ω : Type}

/-
  What a call or a commit can do to the pending deltas of a
  layer, given the delta that it takes in, if it takes one in,
  and the events it reports.
-/
inductive Turned (l : Layer K V δ ω) :
    Option δ → List (Event K δ) → Layer K V δ ω → Prop
| kept
    {events : List (Event K δ)}
    {m : Layer K V δ ω}
    (hPending : m.pending = l.pending)
    (hQuiet : ∀ event ∈ events, event.isQuiet = true) :
    Turned l none events m
| appended
    (d : δ)
    {m : Layer K V δ ω}
    (hPending : m.pending = l.pending ++ [d]) :
    Turned l (some d)
      (if m.config.traced then
        [.deltaAppended m.key m.pending.length d]
      else
        [])
      m
| replayed
    {events : List (Event K δ)}
    {m : Layer K V δ ω}
    (hPending : m.pending = [])
    (hQuiet : ∀ event ∈ events, event.isQuiet = true) :
    Turned l none
      (events ++
        if l.pending.isEmpty then
          []
        else
          [.replayed l.key l.pending.length])
      m
| discarded
    {events : List (Event K δ)}
    {m : Layer K V δ ω}
    (hPending : m.pending = [])
    (hQuiet : ∀ event ∈ events, event.isQuiet = true) :
    Turned l none
      (events ++ [.discarded l.key l.pending.length]) m

namespace Turned

variable {l m : Layer K V δ ω}
variable {taken : Option δ} {events : List (Event K δ)}

/-
  What was pending or is taken in is replayed, discarded or
  still pending.
-/
theorem balance (hTurned : l.Turned taken events m) :
    l.pending.length + taken.toList.length =
      Event.replayedIn events + Event.discardedIn events +
        m.pending.length := by
  cases hTurned with
  | kept hPending hQuiet =>
      rcases Event.counts_of_quiet hQuiet with
        ⟨hReplayed, hDiscarded, _⟩
      simp [hPending, hReplayed, hDiscarded]
  | appended d hPending =>
      rw [hPending]
      split
      · simp [Event.replayedIn, Event.discardedIn,
          Event.replays, Event.discards]
      · simp [Event.replayedIn, Event.discardedIn]
  | replayed hPending hQuiet =>
      rcases Event.counts_of_quiet hQuiet with
        ⟨hReplayed, hDiscarded, _⟩
      rw [Event.replayedIn_append, Event.discardedIn_append,
        hReplayed, hDiscarded, hPending]
      split
      · next hEmpty =>
          simp [List.isEmpty_iff.mp hEmpty, Event.replayedIn,
            Event.discardedIn]
      · simp [Event.replayedIn, Event.discardedIn,
          Event.replays, Event.discards]
  | discarded hPending hQuiet =>
      rcases Event.counts_of_quiet hQuiet with
        ⟨hReplayed, hDiscarded, _⟩
      rw [Event.replayedIn_append, Event.discardedIn_append,
        hReplayed, hDiscarded, hPending]
      simp [Event.replayedIn, Event.discardedIn,
        Event.replays, Event.discards]

/- A delta that is taken in is reported if the layer traces. -/
theorem events_of_taken
    {d : δ}
    (hTurned : l.Turned (some d) events m) :
    events =
      if m.config.traced then
        [.deltaAppended m.key m.pending.length d]
      else
        [] := by
  cases hTurned with
  | appended d hPending => rfl

/- No delta is reported that is not taken in. -/
theorem not_isAppended
    (hTurned : l.Turned none events m) :
    ∀ event ∈ events, event.isAppended = false := by
  cases hTurned with
  | kept hPending hQuiet =>
      exact (Event.counts_of_quiet hQuiet).2.2
  | replayed hPending hQuiet =>
      intro event hMem
      rcases List.mem_append.mp hMem with hMem | hMem
      · exact (Event.counts_of_quiet hQuiet).2.2 event hMem
      · split at hMem
        · cases hMem
        · rw [List.mem_singleton.mp hMem]
          rfl
  | discarded hPending hQuiet =>
      intro event hMem
      rcases List.mem_append.mp hMem with hMem | hMem
      · exact (Event.counts_of_quiet hQuiet).2.2 event hMem
      · rw [List.mem_singleton.mp hMem]
        rfl

end Turned

variable [Delta δ ω]

/- A rollback discards what is pending in a changed layer. -/
theorem turned_discard
    (l : Layer K V δ ω)
    (value : Option V)
    {events : List (Event K δ)}
    (hQuiet : ∀ event ∈ events, event.isQuiet = true) :
    l.Turned none (events ++ (l.discard value).2)
      (l.discard value).1 := by
  unfold discard
  split
  · exact .discarded rfl hQuiet
  · rw [List.append_nil]
    exact .kept rfl hQuiet

/- A commit replays what is pending into the live value. -/
theorem turned_replay
    {σ : Type} [Holding V σ δ]
    {l : Layer K V δ ω}
    (hValue : l.value ≠ none)
    (s : σ)
    {events : List (Event K δ)}
    (hQuiet : ∀ event ∈ events, event.isQuiet = true) :
    l.Turned none (events ++ (l.replay s).events)
      (l.replay s).layer := by
  unfold replay
  split
  · next hNone => exact absurd hNone hValue
  · exact .replayed rfl hQuiet

end Layer

end OverlayCache

------------------------------------------------------------
-- Overlays Of One Layer
------------------------------------------------------------

namespace OverlayCache

namespace Entry

variable {γ K V δ ω σ : Type}

/- The delta that a call takes in, given the reply. -/
def taken? : Call V δ → Reply V → Option δ
| .append d, .done => some d
| _, _ => none

/- A turn of the only layer, given what it takes in. -/
def Turned
    (l : Layer K V δ ω)
    (taken : Option δ)
    (events : List (Event K δ))
    (e : Entry K V δ ω) : Prop :=
  ∃ m : Layer K V δ ω,
    e.layers = [m] ∧ l.Turned taken events m

/- A call whose events are quiet and whose layer is kept. -/
theorem Turned.of_kept
    {l m : Layer K V δ ω}
    {e : Entry K V δ ω}
    {events : List (Event K δ)}
    (hOne : e.layers = [m])
    (hPending : m.pending = l.pending)
    (hQuiet : ∀ event ∈ events, event.isQuiet = true) :
    Turned l none events e :=
  ⟨m, hOne, .kept hPending hQuiet⟩

theorem layers_withTop
    {e : Entry K V δ ω}
    {l : Layer K V δ ω}
    (hOne : e.layers = [l])
    (m : Layer K V δ ω) :
    (e.withTop m).layers = [m] := by
  rcases layers_eq_singleton.mp hOne with rfl | ⟨p, rfl⟩
  · rfl
  · rfl

theorem value_of_layers
    {e : Entry K V δ ω}
    {l : Layer K V δ ω}
    (hOne : e.layers = [l]) :
    e.value = l.value := by
  rcases layers_eq_singleton.mp hOne with rfl | ⟨p, rfl⟩
  · cases hOne
    rfl
  · cases hOne
    rfl

theorem top?_of_layers
    {e : Entry K V δ ω}
    {l : Layer K V δ ω}
    (hOne : e.layers = [l]) :
    e.top? = some l := by
  rcases layers_eq_singleton.mp hOne with rfl | ⟨p, rfl⟩
  · rfl
  · rfl

variable [Delta δ ω]

theorem turned_append
    {e : Entry K V δ ω}
    {l : Layer K V δ ω}
    (hOne : e.layers = [l])
    (d : δ) :
    Turned l (taken? (.append d) (e.append d).reply)
      (e.append d).events (e.append d).entry := by
  simp only [append, top?_of_layers hOne]
  split
  · exact .of_kept hOne rfl (by simp [Event.isQuiet])
  · have hTurned :=
      Layer.Turned.appended (l := l) d
        (l.pending_append (e.is .created) d)
    rw [l.key_append, l.config_append,
      l.length_pending_append] at hTurned
    exact ⟨_, layers_withTop hOne _, hTurned⟩

/- What a call makes of the only layer. -/
theorem turned_call
    {e : Entry K V δ ω}
    {l : Layer K V δ ω}
    (hOne : e.layers = [l])
    (c : Call V δ) :
    Turned l (taken? c (e.call c).reply) (e.call c).events
      (e.call c).entry := by
  have hNone : ∀ event ∈ ([] : List (Event K δ)),
      event.isQuiet = true := by
    simp
  cases c with
  | append d => exact turned_append hOne d
  | setValue | mark | setLock | setVersion =>
      rcases layers_eq_singleton.mp hOne with rfl | ⟨p, rfl⟩
      · cases hOne
        exact .of_kept rfl rfl hNone
      · cases hOne
        exact .of_kept rfl rfl hNone
  | configure config =>
      simp only [call, configure, top?_of_layers hOne]
      exact .of_kept (layers_withTop hOne _) rfl hNone
  | prepare =>
      rcases layers_eq_singleton.mp hOne with rfl | ⟨p, rfl⟩
      · cases hOne
        simp only [call, prepare]
        refine .of_kept rfl (l.pending_start _) ?_
        split
        · exact hNone
        · simp [Event.isQuiet]
      · cases hOne
        simp only [call, prepare]
        refine .of_kept rfl (l.pending_start _) ?_
        split
        · exact hNone
        · simp [Event.isQuiet]
  | rollback =>
      rcases layers_eq_singleton.mp hOne with rfl | ⟨p, rfl⟩
      · cases hOne
        exact ⟨_, rfl, l.turned_discard l.snapshot hNone⟩
      · cases hOne
        exact
          ⟨_, rfl,
            l.turned_discard (p.rollback (δ := δ)).1.value
              p.isQuiet_rollback⟩
  | undelete on =>
      rcases layers_eq_singleton.mp hOne with rfl | ⟨p, rfl⟩
      · cases hOne
        simp only [call, undelete]
        split
        · exact .of_kept rfl rfl (by simp [Event.isQuiet])
        · exact .of_kept rfl rfl hNone
      · cases hOne
        simp only [call, undelete]
        split
        · exact .of_kept rfl rfl (by simp [Event.isQuiet])
        · exact .of_kept rfl rfl hNone

variable [Repository γ K V] [Holding V σ δ]

/- What a commit makes of it, unless it has nothing to keep. -/
theorem turned_commit
    {e : Entry K V δ ω}
    {l : Layer K V δ ω}
    (hOne : e.layers = [l])
    (c : γ)
    (s : σ)
    (version : Option Version)
    (hValue :
      (e.commit c s version).result = .ok () →
        l.value ≠ none) :
    Turned l none (e.commit c s version).events
      (e.commit c s version).entry := by
  rcases layers_eq_singleton.mp hOne with rfl | ⟨p, rfl⟩
  · cases hOne
    refine ⟨(l.replay s).layer, rfl, ?_⟩
    exact l.turned_replay (hValue rfl) s (by simp)
  · cases hOne
    have hReady :
        (Entry.stacked l (.plain p)).ready.2 = [] := by
      simp only [ready]
      split
      · rfl
      · rfl
    simp only [commit, ready_stacked_plain, hReady, settle,
      List.nil_append] at hValue ⊢
    let q := if l.flags.changed then p.capture else p
    have hQuiet := q.isQuiet_commit (δ := δ) c version
    cases hResult :
        (q.commit (δ := δ) c version).result with
    | error refusal =>
        simp only [q] at hResult hQuiet
        simp only
        exact .of_kept rfl rfl hQuiet
    | ok u =>
        simp only [q] at hResult hQuiet
        simp only [hResult] at hValue ⊢
        exact
          ⟨_, rfl, l.turned_replay (hValue trivial) s hQuiet⟩

end Entry

end OverlayCache

------------------------------------------------------------
-- Accounts Of Runs
------------------------------------------------------------

namespace OverlayCache

namespace Site

variable {ι γ K V δ ω σ : Type}

/- The delta that a step takes in, if it takes one in. -/
def Line.taken? (line : Line ι γ K V δ ω σ) : Option δ :=
  match line.step with
  | .call c => Entry.taken? c line.turn.reply
  | _ => none

/- Whether a commit that takes effect finds a live value. -/
def Line.findsValue (line : Line ι γ K V δ ω σ) : Bool :=
  match line.step, line.turn.reply with
  | .commit _ _, .done => line.before.entry.value.isSome
  | _, _ => true

/-
  A step that takes a delta in reports it, if the layer traces
  its deltas, with the number of those that are pending then.
  No other step reports a delta that is taken in.
-/
structure Line.ReportsTaken
    (line : Line ι γ K V δ ω σ)
    (l : Layer K V δ ω) : Prop where
  taken :
    ∀ d : δ,
      line.taken? = some d →
        line.turn.events =
          if l.config.traced then
            [.deltaAppended l.key l.pending.length d]
          else
            []
  others :
    line.taken? = none →
      ∀ event ∈ line.turn.events, event.isAppended = false

variable [DecidableEq ι] [Repository γ K V]
variable [Delta δ ω] [Holding V σ δ]

/- The deltas that a run takes in, in order. -/
def takenIn
    (w : Site ι γ K V δ ω σ)
    (steps : List (Step ι γ V δ σ)) : List δ :=
  (w.log steps).filterMap Line.taken?

/- What a run reports, in order. -/
def eventsIn
    (w : Site ι γ K V δ ω σ)
    (steps : List (Step ι γ V δ σ)) : List (Event K δ) :=
  (w.log steps).flatMap (fun line => line.turn.events)

/- The first line of a log. -/
def lineOf
    (w : Site ι γ K V δ ω σ)
    (s : Step ι γ V δ σ) : Line ι γ K V δ ω σ where
  step := s
  before := w
  turn := w.step s

variable {w : Site ι γ K V δ ω σ} {l : Layer K V δ ω}

/- What a step makes of the only layer. -/
theorem turned_step
    (hOne : w.entry.layers = [l])
    {s : Step ι γ V δ σ}
    (hValue : (w.lineOf s).findsValue = true) :
    Entry.Turned l (w.lineOf s).taken? (w.step s).events
      (w.step s).site.entry := by
  cases s with
  | call c => exact Entry.turned_call hOne c
  | commit name version =>
      apply Entry.turned_commit hOne
      intro hOk hNone
      have hDone :
          (w.step (.commit name version)).reply = .done := by
        simp only [step, hOk]
      simp [Line.findsValue, lineOf, hDone,
        Entry.value_of_layers hOne, hNone] at hValue
  | others act =>
      have hNone :
          ∀ event ∈ ([] : List (Event K δ)),
            event.isQuiet = true := by
        simp
      exact .of_kept hOne rfl hNone

/- What was pending or is taken in, a run accounts for. -/
theorem balance_run
    (hOne : w.entry.layers = [l])
    {steps : List (Step ι γ V δ σ)}
    (hValue : ∀ line ∈ w.log steps, line.findsValue = true) :
    ∃ m : Layer K V δ ω,
      (w.run steps).entry.layers = [m] ∧
        l.pending.length + (w.takenIn steps).length =
          Event.replayedIn (w.eventsIn steps) +
            Event.discardedIn (w.eventsIn steps) +
              m.pending.length := by
  induction steps generalizing w l with
  | nil =>
      refine ⟨l, hOne, ?_⟩
      simp [takenIn, eventsIn, log, Event.replayedIn,
        Event.discardedIn]
  | cons s steps ih =>
      rcases List.forall_mem_cons.mp hValue with
        ⟨hFirst, hRest⟩
      rcases turned_step hOne hFirst with
        ⟨l', hNext, hTurned⟩
      rcases ih hNext hRest with ⟨m, hEnd, hBalance⟩
      refine ⟨m, hEnd, ?_⟩
      have hStep := hTurned.balance
      have hTaken :
          w.takenIn (s :: steps) =
            (w.lineOf s).taken?.toList ++
              (w.step s).site.takenIn steps := by
        change
          (w.lineOf s :: (w.step s).site.log steps).filterMap
            Line.taken? = _
        rw [List.filterMap_cons]
        cases (w.lineOf s).taken? with
        | none => rfl
        | some d => rfl
      have hEvents :
          w.eventsIn (s :: steps) =
            (w.step s).events ++
              (w.step s).site.eventsIn steps := by
        simp only [eventsIn, log, List.flatMap_cons]
      rw [hTaken, hEvents, List.length_append,
        Event.replayedIn_append, Event.discardedIn_append]
      omega

/- Every line of a log reports what it takes in. -/
theorem reportsTaken_of_mem_log
    (hOne : w.entry.layers = [l])
    {steps : List (Step ι γ V δ σ)}
    (hValue : ∀ line ∈ w.log steps, line.findsValue = true)
    {line : Line ι γ K V δ ω σ}
    (hMem : line ∈ w.log steps) :
    ∃ m : Layer K V δ ω,
      line.turn.site.entry.top? = some m ∧
        line.ReportsTaken m := by
  induction steps generalizing w l with
  | nil => cases hMem
  | cons s steps ih =>
      rcases List.forall_mem_cons.mp hValue with
        ⟨hFirst, hRest⟩
      rcases turned_step hOne hFirst with
        ⟨m, hNext, hTurned⟩
      rcases List.mem_cons.mp hMem with rfl | hMem
      · refine ⟨m, Entry.top?_of_layers hNext, ?_, ?_⟩
        · intro d hTaken
          change (w.lineOf s).taken? = some d at hTaken
          rw [hTaken] at hTurned
          exact hTurned.events_of_taken
        · intro hNone
          change (w.lineOf s).taken? = none at hNone
          rw [hNone] at hTurned
          exact hTurned.not_isAppended
      · exact ih hNext hRest hMem

/-
  A fresh layer, alone or over a plain entry, is called and
  committed in any way, and others may change the repositories
  and the store meanwhile.  Every commit that takes effect
  finds a live value.  Then at every point the deltas that
  were taken in are as many as the events report to be
  replayed, those that they report to be discarded, and those
  that are pending, together.

  If the layer traces, a delta that is taken in is reported
  once, with the number of deltas that are pending just after,
  and nothing else is reported like that.
-/
theorem events_account_for_deltas
    {e : Entry K V δ ω}
    {key : K}
    {value : Option V}
    {config : Config}
    (hFresh : e.layers = [.fresh key value config])
    (containers : ι → γ)
    (store : σ)
    {steps : List (Step ι γ V δ σ)}
    (hValue :
      ∀ line ∈ log ⟨e, containers, store⟩ steps,
        line.findsValue = true) :
    let w : Site ι γ K V δ ω σ := ⟨e, containers, store⟩
    let events := w.eventsIn steps
    (∃ l : Layer K V δ ω,
      (w.run steps).entry.top? = some l ∧
        (w.takenIn steps).length =
          Event.replayedIn events + Event.discardedIn events +
            l.pending.length) ∧
      ∀ line ∈ w.log steps,
        ∃ l : Layer K V δ ω,
          line.turn.site.entry.top? = some l ∧
            line.ReportsTaken l := by
  intro w events
  have hOne : w.entry.layers = [.fresh key value config] :=
    hFresh
  refine ⟨?_, ?_⟩
  · rcases balance_run hOne hValue with ⟨m, hEnd, hBalance⟩
    refine ⟨m, Entry.top?_of_layers hEnd, ?_⟩
    simpa [Layer.fresh] using hBalance
  · intro line hMem
    exact reportsTaken_of_mem_log hOne hValue hMem

/-
  Two deltas are taken in, and their commit is refused and
  rolled back.  One is committed, one is refused, and one is
  left pending.
-/
theorem events_account_for_refused :
    let e : Entry Nat Counter CounterDelta Int64 :=
      .stacked (.fresh 1 (some ⟨5, 0⟩) ⟨true, true⟩)
        (.plain (.existing 1 (some ⟨5, 0⟩)))
    let containers : Bool → Container Nat Counter :=
      fun isOpen =>
        if isOpen then
          .empty none
        else
          (Container.empty none).close
    let steps :
        List
          (Step Bool (Container Nat Counter) Counter
            CounterDelta Unit) :=
      [.call (.append (.add 2)), .call (.append (.mul 3)),
        .commit false none, .call .rollback,
        .call (.append (.add 4)), .commit true none,
        .call (.append (.set 6))]
    let w :
        Site Bool (Container Nat Counter) Nat Counter
          CounterDelta Int64 Unit :=
      ⟨e, containers, ()⟩
    let events := w.eventsIn steps
    w.takenIn steps = [.add 2, .mul 3, .add 4, .set 6] ∧
      Event.replayedIn events = 1 ∧
      Event.discardedIn events = 2 ∧
      ∃ l : Layer Nat Counter CounterDelta Int64,
        (w.run steps).entry.top? = some l ∧
          l.pending = [.set 6] ∧
          (w.takenIn steps).length =
            Event.replayedIn events +
              Event.discardedIn events + l.pending.length := by
  intro e containers steps w events
  have hValue :
      ∀ line ∈ w.log steps, line.findsValue = true := by
    decide +kernel
  rcases events_account_for_deltas (e := e) rfl containers ()
      hValue with
    ⟨⟨l, hTop, hBalance⟩, _⟩
  refine
    ⟨by decide +kernel, by decide +kernel, by decide +kernel,
      l, hTop, ?_, hBalance⟩
  have hPending :
      (w.run steps).entry.top?.map Layer.pending =
        some [.set 6] := by
    decide +kernel
  rw [hTop] at hPending
  exact Option.some.inj hPending

end Site

end OverlayCache
