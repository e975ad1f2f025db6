import OverlayCache.Counter
import OverlayCache.Proofs.Layers.Moves
import OverlayCache.Proofs.Lifecycle.Unmarked

/-
  Strict layers.

  A strict layer refuses deltas while its key is removed or
  not valid, and does nothing else in another way than a
  lenient one.  So a run of a strict overlay is the run of a
  lenient one in which the refused deltas were not appended.

  Key definitions include:
    * `Entry.withStrict`
    * `Entry.isBarred`
    * `Site`
    * `Site.log`
    * `Site.accepted`

  The main statements are:
    * `Entry.append_of_barred`
    * `Entry.append_of_taken`
    * `Entry.commit_withStrict`
    * `Site.step_withStrict`
    * `Site.strictness_filters_appends`
-/

------------------------------------------------------------
-- Strict And Lenient Layers
------------------------------------------------------------

namespace OverlayCache

namespace Layer

variable {K V δ ω : Type}

/- The layer with another strictness. -/
def withStrict (on : Bool) (l : Layer K V δ ω) :
    Layer K V δ ω :=
  { l with config := l.config.setStrict on }

theorem start_withStrict
    (on : Bool)
    (l : Layer K V δ ω)
    (created : Bool) :
    (l.withStrict on).start created =
      (l.start created).withStrict on := by
  unfold start withStrict
  split <;> rfl

variable [Delta δ ω]

theorem append_withStrict
    (on : Bool)
    (l : Layer K V δ ω)
    (created : Bool)
    (d : δ) :
    (l.withStrict on).append created d =
      (l.append created d).withStrict on := by
  simp only [append, start_withStrict]
  rfl

theorem discard_withStrict
    (on : Bool)
    (l : Layer K V δ ω)
    (value : Option V) :
    (l.withStrict on).discard value =
      ((l.discard value).1.withStrict on,
        (l.discard value).2) := by
  unfold discard withStrict
  split <;> rfl

theorem replay_withStrict
    {σ : Type} [Holding V σ δ]
    (on : Bool)
    (l : Layer K V δ ω)
    (s : σ) :
    (l.withStrict on).replay s =
      { l.replay s with
        layer := (l.replay s).layer.withStrict on } := by
  cases l with
  | mk key value snapshot pending work flags config =>
      cases value with
      | none => rfl
      | some v => rfl

end Layer

end OverlayCache

------------------------------------------------------------
-- Strict And Lenient Overlays
------------------------------------------------------------

namespace OverlayCache

variable {γ K V δ ω σ : Type}

namespace Entry

/- The entry with another strictness of its topmost layer. -/
def withStrict (on : Bool) : Entry K V δ ω → Entry K V δ ω
| .plain p => .plain p
| .alone l => .alone (l.withStrict on)
| .stacked l below => .stacked (l.withStrict on) below

/- Whether the entry has a layer on top. -/
def isOverlay (e : Entry K V δ ω) : Bool :=
  e.top?.isSome

/- Whether a strict layer takes no deltas by now. -/
def isBarred (e : Entry K V δ ω) : Bool :=
  e.is .removed || !e.is .valid

@[simp] theorem withStrict_withStrict
    (on before : Bool)
    (e : Entry K V δ ω) :
    (e.withStrict before).withStrict on = e.withStrict on := by
  cases e with
  | plain p => rfl
  | alone l => rfl
  | stacked l below => rfl

@[simp] theorem isOverlay_withStrict
    (on : Bool)
    (e : Entry K V δ ω) :
    (e.withStrict on).isOverlay = e.isOverlay := by
  cases e with
  | plain p => rfl
  | alone l => rfl
  | stacked l below => rfl

@[simp] theorem is_withStrict
    (on : Bool)
    (e : Entry K V δ ω)
    (flag : Flag) :
    (e.withStrict on).is flag = e.is flag := by
  cases e with
  | plain p => rfl
  | alone l => rfl
  | stacked l below => rfl

theorem top?_withStrict
    (on : Bool)
    (e : Entry K V δ ω) :
    (e.withStrict on).top? =
      e.top?.map (Layer.withStrict on) := by
  cases e with
  | plain p => rfl
  | alone l => rfl
  | stacked l below => rfl

theorem withTop_withStrict
    (on : Bool)
    (e : Entry K V δ ω)
    (l : Layer K V δ ω) :
    (e.withStrict on).withTop (l.withStrict on) =
      (e.withTop l).withStrict on := by
  cases e with
  | plain p => rfl
  | alone l => rfl
  | stacked l below => rfl

/- The bottom of the stack says whether deltas are barred. -/
theorem isBarred_iff_bottom (e : Entry K V δ ω) :
    e.isBarred = true ↔
      e.bottom.is .removed = true ∨
        e.bottom.is .valid = false := by
  rw [is_bottom e (by decide), is_bottom e (by decide)]
  simp [isBarred]

/- Being built alike is to be an overlay, or both not. -/
theorem Levelwise.isOverlay_eq
    {R : Layer K V δ ω → Layer K V δ ω → Prop}
    {e f : Entry K V δ ω}
    (h : e.Levelwise R f) :
    f.isOverlay = e.isOverlay := by
  cases h with
  | plain p q => rfl
  | alone h => rfl
  | stacked h hBelow => rfl

end Entry

/- What is left after a call, with another strictness. -/
def Entry.Turn.withStrict
    (on : Bool)
    (t : Entry.Turn K V δ ω) : Entry.Turn K V δ ω :=
  { t with entry := t.entry.withStrict on }

/- What is left after a commit, with another strictness. -/
def Outcome.withStrict
    (on : Bool)
    (o : Outcome γ K V δ ω σ) : Outcome γ K V δ ω σ :=
  { o with entry := o.entry.withStrict on }

end OverlayCache

------------------------------------------------------------
-- Calls And Commits
------------------------------------------------------------

namespace OverlayCache

namespace Entry

variable {γ K V δ ω σ : Type}

section Appends

variable [Delta δ ω]

/- A strict overlay refuses a delta and stays as it is. -/
theorem append_of_barred
    {e : Entry K V δ ω}
    {l : Layer K V δ ω}
    (hTop : e.top? = some l)
    (hBarred : e.isBarred = true)
    (d : δ) :
    (e.withStrict true).append d =
      { entry := e.withStrict true
        events := [.deltaRefused l.key]
        reply := .refused .deltaRefused } := by
  have hRefuses :
      ((l.withStrict true).config.strict &&
        (e.is .removed || !e.is .valid)) = true := hBarred
  simp only [append, top?_withStrict, hTop, Option.map_some,
    is_withStrict, hRefuses, if_true]
  rfl

/- Otherwise it takes the delta in, as a lenient one does. -/
theorem append_of_taken
    {e : Entry K V δ ω}
    {l : Layer K V δ ω}
    (hTop : e.top? = some l)
    {on : Bool}
    (hTaken : (on && e.isBarred) = false)
    (d : δ) :
    (e.withStrict on).append d =
      let taken := l.append (e.is .created) d
      { entry := (e.withTop taken).withStrict on
        events :=
          if l.config.traced then
            [.deltaAppended l.key (l.pending.length + 1) d]
          else
            [] } := by
  have hTakes :
      ((l.withStrict on).config.strict &&
        (e.is .removed || !e.is .valid)) = false := hTaken
  simp only [append, top?_withStrict, hTop, Option.map_some,
    is_withStrict, hTakes, Layer.append_withStrict,
    withTop_withStrict]
  rfl

end Appends

theorem prepare_withStrict
    (on : Bool)
    (e : Entry K V δ ω) :
    (e.withStrict on).prepare =
      (e.prepare.1.withStrict on, e.prepare.2) := by
  cases e with
  | plain p => rfl
  | alone l =>
      simp only [withStrict, prepare, Layer.start_withStrict]
      rfl
  | stacked l below =>
      simp only [withStrict, prepare, Layer.start_withStrict]
      rfl

theorem undelete_withStrict
    (on answer : Bool)
    (e : Entry K V δ ω) :
    (e.withStrict on).undelete answer =
      let u := e.undelete answer
      (u.1, u.2.1.withStrict on, u.2.2) := by
  have hRemoved :
      (e.withStrict on).bottom.is .removed =
        e.bottom.is .removed := by
    cases e <;> rfl
  have hFlags :
      (e.withStrict on).bottom.ownFlags =
        e.bottom.ownFlags := by
    cases e <;> rfl
  have hKey :
      (e.withStrict on).bottom.key = e.bottom.key := by
    cases e <;> rfl
  have hMap (flags : Flags) :
      (e.withStrict on).mapBottom
          (fun b => b.withOwnFlags flags) =
        (e.mapBottom
          (fun b => b.withOwnFlags flags)).withStrict on := by
    cases e <;> rfl
  simp only [undelete, hRemoved, hFlags, hKey, hMap]
  split
  · rfl
  · rfl

theorem ready_withStrict
    (on : Bool)
    (e : Entry K V δ ω) :
    (e.withStrict on).ready =
      (e.ready.1.withStrict on, e.ready.2) := by
  cases e with
  | plain p => rfl
  | alone l => rfl
  | stacked l below => rfl

variable [Delta δ ω]

theorem rollback_withStrict
    (on : Bool)
    (e : Entry K V δ ω) :
    (e.withStrict on).rollback =
      (e.rollback.1.withStrict on, e.rollback.2) := by
  cases e with
  | plain p => rfl
  | alone l =>
      simp only [withStrict, rollback,
        Layer.discard_withStrict]
      rfl
  | stacked l below =>
      simp only [withStrict, rollback,
        Layer.discard_withStrict]

/- No other call than an append asks for the strictness. -/
theorem call_withStrict
    {c : Call V δ}
    (hAppend : ∀ d : δ, c ≠ .append d)
    (hConfig : ∀ config : Config, c ≠ .configure config)
    (on : Bool)
    (e : Entry K V δ ω) :
    (e.withStrict on).call c = (e.call c).withStrict on := by
  cases c with
  | append d => exact absurd rfl (hAppend d)
  | configure config => exact absurd rfl (hConfig config)
  | setValue | mark | setLock | setVersion =>
      cases e with
      | plain p => rfl
      | alone l => rfl
      | stacked l below => rfl
  | prepare =>
      simp only [call, prepare_withStrict]
      rfl
  | rollback =>
      simp only [call, rollback_withStrict]
      rfl
  | undelete answer =>
      simp only [call, undelete_withStrict]
      rfl

variable [Repository γ K V] [Holding V σ δ]

/- Commits do not ask for it either. -/
theorem commit_withStrict
    (on : Bool)
    (e : Entry K V δ ω)
    (c : γ)
    (s : σ)
    (version : Option Version) :
    (e.withStrict on).commit c s version =
      (e.commit c s version).withStrict on := by
  have hSettle :
      ∀ f : Entry K V δ ω,
        (f.withStrict on).settle version c s =
          (f.settle version c s).withStrict on := by
    intro f
    cases f with
    | plain p => rfl
    | alone l =>
        simp only [withStrict, settle, Layer.replay_withStrict]
        rfl
    | stacked l below =>
        simp only [withStrict, settle]
        cases (below.settle version c s).result with
        | error refusal => rfl
        | ok u =>
            simp only [Layer.replay_withStrict]
            rfl
  simp only [commit, ready_withStrict, hSettle]
  rfl

end Entry

end OverlayCache

------------------------------------------------------------
-- Overlays In Use
------------------------------------------------------------

namespace OverlayCache

/-
  An entry in use, with the repositories that it can be
  committed to and the store behind it.
-/
structure Site (ι γ K V δ ω σ : Type) where
  entry : Entry K V δ ω
  containers : ι → γ
  store : σ

namespace Site

/-
  One thing that is done to the entry, or something that
  others do to the repositories and the store meanwhile.
-/
inductive Step (ι γ V δ σ : Type) where
| call (c : Entry.Call V δ)
| commit (container : ι) (version : Option Version)
| others (act : (ι → γ) → σ → (ι → γ) × σ)

/- What is left after a step. -/
structure Turn (ι γ K V δ ω σ : Type) where
  site : Site ι γ K V δ ω σ
  events : List (Event K δ) := []
  reply : Entry.Reply V := .done

/- A step of a run, what it found, and what came of it. -/
structure Line (ι γ K V δ ω σ : Type) where
  step : Step ι γ V δ σ
  before : Site ι γ K V δ ω σ
  turn : Turn ι γ K V δ ω σ

variable {ι γ K V δ ω σ : Type}

/- Whether an append was refused. -/
def Line.isRefused (line : Line ι γ K V δ ω σ) : Bool :=
  match line.step, line.turn.reply with
  | .call (.append _), .refused .deltaRefused => true
  | _, _ => false

/- The same with another strictness of the entry. -/
def withStrict (on : Bool) (w : Site ι γ K V δ ω σ) :
    Site ι γ K V δ ω σ :=
  { w with entry := w.entry.withStrict on }

def Turn.withStrict (on : Bool) (t : Turn ι γ K V δ ω σ) :
    Turn ι γ K V δ ω σ :=
  { t with site := t.site.withStrict on }

def Line.withStrict
    (on : Bool)
    (line : Line ι γ K V δ ω σ) : Line ι γ K V δ ω σ where
  step := line.step
  before := line.before.withStrict on
  turn := line.turn.withStrict on

variable [DecidableEq ι] [Repository γ K V]
variable [Delta δ ω] [Holding V σ δ]

/- Carry out a step. -/
def step (w : Site ι γ K V δ ω σ) :
    Step ι γ V δ σ → Turn ι γ K V δ ω σ
| .call c =>
    let t := w.entry.call c
    { site := { w with entry := t.entry }
      events := t.events
      reply := t.reply }
| .commit name version =>
    let o := w.entry.commit (w.containers name) w.store version
    { site :=
        { entry := o.entry
          containers :=
            Function.update w.containers name o.container
          store := o.store }
      events := o.events
      reply :=
        match o.result with
        | .ok () => .done
        | .error refusal => .refused (.container refusal) }
| .others act =>
    let p := act w.containers w.store
    { site := { w with containers := p.1, store := p.2 } }

/- Carry out steps in order. -/
def run
    (w : Site ι γ K V δ ω σ)
    (steps : List (Step ι γ V δ σ)) : Site ι γ K V δ ω σ :=
  steps.foldl (fun v s => (v.step s).site) w

/- What comes of the steps of a run, in order. -/
def log (w : Site ι γ K V δ ω σ) :
    List (Step ι γ V δ σ) → List (Line ι γ K V δ ω σ)
| [] => []
| s :: steps =>
    let t := w.step s
    { step := s, before := w, turn := t } :: t.site.log steps

/- What comes of the steps that are not refused appends. -/
def logAccepted
    (w : Site ι γ K V δ ω σ)
    (steps : List (Step ι γ V δ σ)) :
    List (Line ι γ K V δ ω σ) :=
  (w.log steps).filter (fun line => !line.isRefused)

/- The steps of a run but for its refused appends. -/
def accepted
    (w : Site ι γ K V δ ω σ)
    (steps : List (Step ι γ V δ σ)) :
    List (Step ι γ V δ σ) :=
  (w.logAccepted steps).map (fun line => line.step)

end Site

end OverlayCache

------------------------------------------------------------
-- Steps
------------------------------------------------------------

namespace OverlayCache

namespace Site

variable {ι γ K V δ ω σ : Type}

@[simp] theorem withStrict_withStrict
    (on before : Bool)
    (w : Site ι γ K V δ ω σ) :
    (w.withStrict before).withStrict on = w.withStrict on := by
  simp [withStrict]

/- Whether a strict site would refuse a step. -/
def bars (w : Site ι γ K V δ ω σ) : Step ι γ V δ σ → Bool
| .call (.append _) => w.entry.isBarred
| _ => false

variable [DecidableEq ι] [Repository γ K V]
variable [Delta δ ω] [Holding V σ δ]

/- An entry with a layer on top keeps one. -/
theorem isOverlay_step
    (w : Site ι γ K V δ ω σ)
    (s : Step ι γ V δ σ) :
    (w.step s).site.entry.isOverlay = w.entry.isOverlay := by
  cases s with
  | call c => exact (w.entry.levelwise_call c).isOverlay_eq
  | commit name version =>
      exact
        (w.entry.levelwise_commit (w.containers name) w.store
          version).isOverlay_eq
  | others act => rfl

/- A strict site refuses an append and stays as it is. -/
theorem step_of_bars
    {w : Site ι γ K V δ ω σ}
    (hOverlay : w.entry.isOverlay = true)
    {s : Step ι γ V δ σ}
    (hBars : w.bars s = true) :
    ∃ d : δ,
      s = .call (.append d) ∧
        ((w.withStrict true).step s).site = w.withStrict true ∧
        ((w.withStrict true).step s).reply =
          .refused .deltaRefused := by
  rcases Option.isSome_iff_exists.mp hOverlay with ⟨l, hTop⟩
  cases s with
  | call c =>
      cases c with
      | append d =>
          have hTurn := Entry.append_of_barred hTop hBars d
          refine ⟨d, rfl, ?_, ?_⟩
          · simp only [step, Entry.call, withStrict, hTurn]
          · simp only [step, Entry.call, withStrict, hTurn]
      | _ => cases hBars
  | _ => cases hBars

/- Any other step comes to the same, strict or lenient. -/
theorem step_withStrict
    {w : Site ι γ K V δ ω σ}
    (hOverlay : w.entry.isOverlay = true)
    {s : Step ι γ V δ σ}
    (hConfig : ∀ config : Config, s ≠ .call (.configure config))
    {on : Bool}
    (hTaken : (on && w.bars s) = false) :
    (w.withStrict on).step s =
      ((w.withStrict false).step s).withStrict on := by
  cases s with
  | call c =>
      have hCall :
          (w.entry.withStrict on).call c =
            ((w.entry.withStrict false).call c).withStrict
              on := by
        rcases Option.isSome_iff_exists.mp hOverlay with
          ⟨l, hTop⟩
        by_cases hAppend : ∃ d : δ, c = .append d
        · rcases hAppend with ⟨d, rfl⟩
          simp only [Entry.call,
            Entry.append_of_taken hTop hTaken,
            Entry.append_of_taken hTop (Bool.false_and _),
            Entry.Turn.withStrict,
            Entry.withStrict_withStrict]
        · have hOther : ∀ d : δ, c ≠ .append d :=
            fun d hEq => hAppend ⟨d, hEq⟩
          have hKeeps :
              ∀ config : Config, c ≠ .configure config :=
            fun config hEq =>
              hConfig config (congrArg Step.call hEq)
          simp only [Entry.call_withStrict hOther hKeeps,
            Entry.Turn.withStrict,
            Entry.withStrict_withStrict]
      simp only [step, withStrict, hCall]
      rfl
  | commit name version =>
      simp only [step, withStrict, Entry.commit_withStrict,
        Outcome.withStrict, Turn.withStrict,
        Entry.withStrict_withStrict]
  | others act =>
      simp only [step, withStrict, Turn.withStrict,
        Entry.withStrict_withStrict]

/- An append that is not barred is done. -/
theorem reply_append_of_taken
    {w : Site ι γ K V δ ω σ}
    (hOverlay : w.entry.isOverlay = true)
    (on : Bool)
    (hTaken : (on && w.entry.isBarred) = false)
    (d : δ) :
    ((w.withStrict on).step (.call (.append d))).reply =
      .done := by
  rcases Option.isSome_iff_exists.mp hOverlay with ⟨l, hTop⟩
  simp only [step, withStrict, Entry.call,
    Entry.append_of_taken hTop hTaken]

end Site

end OverlayCache

------------------------------------------------------------
-- Runs
------------------------------------------------------------

namespace OverlayCache

namespace Site

variable {ι γ K V δ ω σ : Type}

/-
  An append is refused exactly while the bottom of the stack
  says that the key is removed or not valid.  Then it changes
  nothing, and otherwise it is done.
-/
structure Line.IsJudged
    (line : Line ι γ K V δ ω σ) : Prop where
  refused_iff :
    ∀ d : δ,
      line.step = .call (.append d) →
        (line.turn.reply = .refused .deltaRefused ↔
          line.before.entry.bottom.is .removed = true ∨
            line.before.entry.bottom.is .valid = false)
  unchanged :
    line.isRefused = true → line.turn.site = line.before
  done :
    ∀ d : δ,
      line.step = .call (.append d) →
        line.isRefused = false → line.turn.reply = .done

variable [DecidableEq ι] [Repository γ K V]
variable [Delta δ ω] [Holding V σ δ]

/- What a step of a strict site refuses. -/
theorem isRefused_step
    {w : Site ι γ K V δ ω σ}
    (hOverlay : w.entry.isOverlay = true)
    (s : Step ι γ V δ σ) :
    Line.isRefused
        { step := s
          before := w.withStrict true
          turn := (w.withStrict true).step s } =
      w.bars s := by
  cases hBars : w.bars s with
  | true =>
      rcases step_of_bars hOverlay hBars with
        ⟨d, rfl, _, hReply⟩
      simp only [Line.isRefused, hReply]
  | false =>
      cases s with
      | call c =>
          cases c with
          | append d =>
              have hReply :=
                reply_append_of_taken hOverlay true hBars d
              simp only [Line.isRefused, hReply]
          | _ => rfl
      | _ => rfl

theorem isJudged_step
    {w : Site ι γ K V δ ω σ}
    (hOverlay : w.entry.isOverlay = true)
    (s : Step ι γ V δ σ) :
    Line.IsJudged
      { step := s
        before := w.withStrict true
        turn := (w.withStrict true).step s } := by
  have hRefused := isRefused_step hOverlay s
  have hBottom :
      w.entry.isBarred = true ↔
        (w.withStrict true).entry.bottom.is .removed = true ∨
          (w.withStrict true).entry.bottom.is .valid =
            false := by
    rw [← Entry.isBarred_iff_bottom]
    simp only [withStrict, Entry.isBarred, Entry.is_withStrict]
  refine ⟨?_, ?_, ?_⟩
  · rintro d rfl
    rw [← hBottom]
    cases hBarred : w.entry.isBarred with
    | true =>
        rcases step_of_bars hOverlay
            (s := .call (.append d)) hBarred with
          ⟨_, _, _, hReply⟩
        simp [hReply]
    | false =>
        have hReply :=
          reply_append_of_taken hOverlay true hBarred d
        simp [hReply]
  · intro hLine
    rw [hRefused] at hLine
    rcases step_of_bars hOverlay hLine with ⟨_, _, hSite, _⟩
    exact hSite
  · rintro d rfl hLine
    rw [hRefused] at hLine
    exact reply_append_of_taken hOverlay true hLine d

/-
  A step leads a strict site and a lenient one to the same, or
  the strict one refuses it and stays.
-/
theorem step_cases
    {w : Site ι γ K V δ ω σ}
    (hOverlay : w.entry.isOverlay = true)
    {s : Step ι γ V δ σ}
    (hConfig :
      ∀ config : Config, s ≠ .call (.configure config)) :
    (w.bars s = true ∧
        ((w.withStrict true).step s).site =
          w.withStrict true) ∨
      ∃ t : Turn ι γ K V δ ω σ,
        w.bars s = false ∧
          t.site.entry.isOverlay = true ∧
          (w.withStrict true).step s = t.withStrict true ∧
          (w.withStrict false).step s = t.withStrict false := by
  cases hBars : w.bars s with
  | true =>
      rcases step_of_bars hOverlay hBars with ⟨_, _, hSite, _⟩
      exact .inl ⟨rfl, hSite⟩
  | false =>
      right
      refine ⟨(w.withStrict false).step s, rfl, ?_, ?_, ?_⟩
      · rw [isOverlay_step]
        simpa [withStrict] using hOverlay
      · exact step_withStrict hOverlay hConfig hBars
      · exact
          step_withStrict hOverlay hConfig (Bool.false_and _)

/- A strict site judges every append of a run. -/
theorem isJudged_of_mem_log
    {w : Site ι γ K V δ ω σ}
    (hOverlay : w.entry.isOverlay = true)
    {steps : List (Step ι γ V δ σ)}
    (hConfig :
      ∀ s ∈ steps,
        ∀ config : Config, s ≠ .call (.configure config))
    {line : Line ι γ K V δ ω σ}
    (hMem : line ∈ (w.withStrict true).log steps) :
    line.IsJudged := by
  induction steps generalizing w with
  | nil => cases hMem
  | cons s steps ih =>
      rcases List.forall_mem_cons.mp hConfig with
        ⟨hFirst, hRest⟩
      rcases List.mem_cons.mp hMem with rfl | hMem
      · exact isJudged_step hOverlay s
      · rcases step_cases hOverlay hFirst with
          ⟨_, hSite⟩ | ⟨t, _, hNext, hTurn, _⟩
        · rw [hSite] at hMem
          exact ih hOverlay hRest hMem
        · rw [hTurn] at hMem
          exact ih hNext hRest hMem

/-
  The run of a strict site comes to what a lenient site makes
  of the steps that were not refused.
-/
theorem run_lenient
    {w : Site ι γ K V δ ω σ}
    (hOverlay : w.entry.isOverlay = true)
    {steps : List (Step ι γ V δ σ)}
    (hConfig :
      ∀ s ∈ steps,
        ∀ config : Config, s ≠ .call (.configure config)) :
    let strict := w.withStrict true
    let lenient := w.withStrict false
    let kept := strict.accepted steps
    lenient.log kept =
        (strict.logAccepted steps).map (Line.withStrict false) ∧
      lenient.run kept =
        (strict.run steps).withStrict false := by
  induction steps generalizing w with
  | nil =>
      exact ⟨rfl, (withStrict_withStrict false true w).symm⟩
  | cons s steps ih =>
      intro strict lenient kept
      rcases List.forall_mem_cons.mp hConfig with
        ⟨hFirst, hRest⟩
      have hRefused := isRefused_step hOverlay s
      rcases step_cases hOverlay hFirst with
        ⟨hBars, hSite⟩ | ⟨t, hBars, hNext, hTurn, hLenient⟩
      · have hLog :
            strict.logAccepted (s :: steps) =
              strict.logAccepted steps := by
          rw [hBars] at hRefused
          simp only [logAccepted, log, List.filter_cons,
            strict, hRefused, hSite]
          rfl
        have hRun :
            strict.run (s :: steps) = strict.run steps :=
          congrArg (fun v => v.run steps) hSite
        simp only [kept, accepted, hLog, hRun]
        exact ih hOverlay hRest
      · have hLog :
            strict.logAccepted (s :: steps) =
              { step := s
                before := strict
                turn := t.withStrict true } ::
                (t.site.withStrict true).logAccepted steps := by
          rw [hBars] at hRefused
          simp only [logAccepted, log, List.filter_cons,
            strict, hRefused]
          rw [hTurn]
          rfl
        have hRun :
            strict.run (s :: steps) =
              (t.site.withStrict true).run steps :=
          congrArg (fun u => u.site.run steps) hTurn
        rcases ih hNext hRest with ⟨hLines, hEnd⟩
        have hLine :
            Line.withStrict false
                { step := s
                  before := strict
                  turn := t.withStrict true } =
              { step := s
                before := lenient
                turn := t.withStrict false } := by
          simp [Line.withStrict, Turn.withStrict, strict,
            lenient]
        simp only [kept, accepted, hLog, hRun, List.map_cons]
        refine ⟨?_, ?_⟩
        · rw [hLine, ← hLines]
          simp only [log, lenient, hLenient]
          rfl
        · rw [← hEnd]
          exact
            congrArg
              (fun u =>
                u.site.run
                  ((t.site.withStrict true).accepted steps))
              hLenient

/-
  An overlay, standing alone or over any entry, is used and
  committed in any way, without changing its settings.  While
  it is strict, an append is refused exactly as long as the
  bottom of its stack says that the key is removed or not
  valid, and a refused append leaves everything as it was.

  The run comes to what a lenient overlay makes of the steps
  that are left when the refused appends are taken out.  Every
  one of them finds the same, reports and answers the same,
  and leaves the same entry but for the strictness, the same
  repositories and the same store.
-/
theorem strictness_filters_appends
    {e : Entry K V δ ω}
    {l : Layer K V δ ω}
    (hTop : e.top? = some l)
    (containers : ι → γ)
    (store : σ)
    {steps : List (Step ι γ V δ σ)}
    (hConfig :
      ∀ s ∈ steps,
        ∀ config : Config, s ≠ .call (.configure config)) :
    let strict : Site ι γ K V δ ω σ :=
      ⟨e.withStrict true, containers, store⟩
    let lenient : Site ι γ K V δ ω σ :=
      ⟨e.withStrict false, containers, store⟩
    let kept := strict.accepted steps
    (∀ line ∈ strict.log steps, line.IsJudged) ∧
      lenient.log kept =
        (strict.logAccepted steps).map
          (Line.withStrict false) ∧
      lenient.run kept =
        (strict.run steps).withStrict false := by
  intro strict lenient kept
  let w : Site ι γ K V δ ω σ := ⟨e, containers, store⟩
  have hOverlay : w.entry.isOverlay = true := by
    simp [w, Entry.isOverlay, hTop]
  refine ⟨?_, run_lenient (w := w) hOverlay hConfig⟩
  intro line hMem
  exact isJudged_of_mem_log (w := w) hOverlay hConfig hMem

/-
  The key is removed at the bottom when a delta arrives, which
  a strict overlay refuses.  The removal is taken back, and
  the next delta is taken in and committed.  A lenient overlay
  would have taken the first one in as well.
-/
theorem strictness_filters_first_append :
    let p : Plain Nat Counter :=
      { Plain.existing 1 (some ⟨5, 0⟩) with
        flags := Flags.untouched.raise .removed }
    let e : Entry Nat Counter CounterDelta Int64 :=
      .stacked (.fresh 1 (some ⟨5, 0⟩) {}) (.plain p)
    let containers : String → Container Nat Counter :=
      fun _ => .empty none
    let steps :
        List
          (Step String (Container Nat Counter) Counter
            CounterDelta Unit) :=
      [.call (.append (.add 2)), .call (.undelete true),
        .call (.append (.add 3)), .commit "c" none]
    let strict :
        Site String (Container Nat Counter) Nat Counter
          CounterDelta Int64 Unit :=
      ⟨e.withStrict true, containers, ()⟩
    let lenient :
        Site String (Container Nat Counter) Nat Counter
          CounterDelta Int64 Unit :=
      ⟨e.withStrict false, containers, ()⟩
    strict.accepted steps = steps.tail ∧
      (strict.run steps).entry.value = some ⟨8, 1⟩ ∧
      (lenient.run steps).entry.value = some ⟨10, 1⟩ ∧
      (∀ line ∈ strict.log steps, line.IsJudged) ∧
      lenient.log steps.tail =
        (strict.logAccepted steps).map
          (Line.withStrict false) ∧
      lenient.run steps.tail =
        (strict.run steps).withStrict false := by
  intro p e containers steps strict lenient
  have hConfig :
      ∀ s ∈ steps,
        ∀ config : Config, s ≠ .call (.configure config) := by
    simp [steps]
  have hKept : strict.accepted steps = steps.tail := rfl
  rcases strictness_filters_appends (e := e) rfl containers ()
      hConfig with
    ⟨hJudged, hLog, hEnd⟩
  change
    lenient.log (strict.accepted steps) =
      (strict.logAccepted steps).map (Line.withStrict false)
    at hLog
  change
    lenient.run (strict.accepted steps) =
      (strict.run steps).withStrict false
    at hEnd
  rw [hKept] at hLog hEnd
  exact ⟨hKept, rfl, rfl, hJudged, hLog, hEnd⟩

end Site

end OverlayCache
