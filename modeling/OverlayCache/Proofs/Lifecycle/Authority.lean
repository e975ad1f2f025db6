import OverlayCache.Counter
import OverlayCache.Proofs.Container.Closed
import OverlayCache.Proofs.Lifecycle.Unmarked

/-
  Runs without the marks on wrapping layers.

  The bottom of a stack alone says what becomes of its key.
  So the steps of a run that mark a layer over another entry
  may as well be left out.  All other steps are answered as
  before and report the same, and the run ends with the same
  containers and the same entries, but for these marks.

  Key definitions include:
    * `Workspace.marksLayer`
    * `Workspace.log`
    * `Workspace.withoutMarks`
    * `Workspace.SameButMarks`

  The main statements are:
    * `Workspace.SameButMarks.step`
    * `Workspace.SameButMarks.run`
    * `Workspace.bottom_has_authority`
-/

------------------------------------------------------------
-- Runs And Their Marks
------------------------------------------------------------

namespace OverlayCache

namespace Workspace

variable {K V δ ω σ : Type} [Ord K]

/- Whether a step marks a layer that lies over an entry. -/
def marksLayer (w : Workspace K V δ ω σ) :
    Step K V δ → Bool
| .callEntry name (.mark _ _) =>
    (w.entry? name).any (fun e => e.wraps)
| _ => false

/- A step of a run, and what came of it. -/
structure Line (K V δ : Type) where
  step : Step K V δ
  isMark : Bool
  events : List (Event K δ)
  reply : Reply V

variable [Std.TransOrd K]
variable [Delta δ ω] [Holding V σ δ]

/- What comes of the steps of a run, in order. -/
def log (w : Workspace K V δ ω σ) :
    List (Step K V δ) → List (Line K V δ)
| [] => []
| s :: steps =>
    let t := w.step s
    { step := s
      isMark := w.marksLayer s
      events := t.events
      reply := t.reply } :: t.workspace.log steps

/- What comes of the steps that mark no wrapping layer. -/
def logWithoutMarks
    (w : Workspace K V δ ω σ)
    (steps : List (Step K V δ)) : List (Line K V δ) :=
  (w.log steps).filter (fun line => !line.isMark)

/- The steps of a run that mark no wrapping layer. -/
def withoutMarks
    (w : Workspace K V δ ω σ)
    (steps : List (Step K V δ)) : List (Step K V δ) :=
  (w.logWithoutMarks steps).map (fun line => line.step)

variable {w : Workspace K V δ ω σ}
variable {s : Step K V δ}

theorem logWithoutMarks_of_mark
    (hMark : w.marksLayer s = true)
    (steps : List (Step K V δ)) :
    w.logWithoutMarks (s :: steps) =
      (w.step s).workspace.logWithoutMarks steps := by
  simp [logWithoutMarks, log, hMark]

theorem logWithoutMarks_of_other
    (hOther : w.marksLayer s = false)
    (steps : List (Step K V δ)) :
    w.logWithoutMarks (s :: steps) =
      { step := s
        isMark := false
        events := (w.step s).events
        reply := (w.step s).reply } ::
          (w.step s).workspace.logWithoutMarks steps := by
  simp [logWithoutMarks, log, hOther]

end Workspace

end OverlayCache

------------------------------------------------------------
-- Workspaces That Agree But For Marks
------------------------------------------------------------

namespace OverlayCache

namespace Workspace

variable {K V δ ω σ : Type} [Ord K]

/- Two workspaces agree, but for marks on wrapping layers. -/
structure SameButMarks
    (v w : Workspace K V δ ω σ) : Prop where
  containers : v.containers = w.containers
  store : v.store = w.store
  entries :
    ∀ name : String,
      (v.entry? name).map Entry.unmarked =
        (w.entry? name).map Entry.unmarked

/- So do two turns, which are answered and reported alike. -/
structure Turn.SameButMarks
    (t u : Turn K V δ ω σ) : Prop where
  workspace : t.workspace.SameButMarks u.workspace
  events : t.events = u.events
  reply : t.reply = u.reply

namespace SameButMarks

variable {v w : Workspace K V δ ω σ}

theorem refl (w : Workspace K V δ ω σ) :
    w.SameButMarks w :=
  ⟨rfl, rfl, fun _ => rfl⟩

theorem symm (h : v.SameButMarks w) : w.SameButMarks v :=
  ⟨h.containers.symm, h.store.symm,
    fun name => (h.entries name).symm⟩

theorem trans
    {u : Workspace K V δ ω σ}
    (h : u.SameButMarks v)
    (h' : v.SameButMarks w) : u.SameButMarks w :=
  ⟨h.containers.trans h'.containers, h.store.trans h'.store,
    fun name => (h.entries name).trans (h'.entries name)⟩

/- A name stands for nothing in both, or for like entries. -/
theorem entry?_cases
    (h : v.SameButMarks w)
    (name : String) :
    (v.entry? name = none ∧ w.entry? name = none) ∨
      ∃ e f : Entry K V δ ω,
        v.entry? name = some e ∧
          w.entry? name = some f ∧
          e.unmarked = f.unmarked := by
  have hEntry := h.entries name
  cases hV : v.entry? name with
  | none =>
      cases hW : w.entry? name with
      | none => exact Or.inl ⟨rfl, rfl⟩
      | some f => simp [hV, hW] at hEntry
  | some e =>
      cases hW : w.entry? name with
      | none => simp [hV, hW] at hEntry
      | some f =>
          rw [hV, hW] at hEntry
          exact Or.inr ⟨e, f, rfl, rfl, Option.some.inj hEntry⟩

theorem container?_eq
    (h : v.SameButMarks w)
    (name : String) :
    v.container? name = w.container? name := by
  unfold container?
  rw [h.containers]

theorem marksLayer_eq
    (h : v.SameButMarks w)
    (s : Step K V δ) :
    v.marksLayer s = w.marksLayer s := by
  cases s with
  | callEntry name c =>
      cases c with
      | mark m on =>
          rcases h.entry?_cases name with
            ⟨hV, hW⟩ | ⟨e, f, hV, hW, hSame⟩
          · simp [marksLayer, hV, hW]
          · have hWraps : e.wraps = f.wraps := by
              rw [← e.wraps_unmarked, hSame, f.wraps_unmarked]
            simp [marksLayer, hV, hW, hWraps]
      | _ => rfl
  | _ => rfl

theorem keepContainer
    (h : v.SameButMarks w)
    (name : String)
    (c : Container K V) :
    (v.keepContainer name c).SameButMarks
      (w.keepContainer name c) where
  containers := by
    simp only [Workspace.keepContainer, h.containers]
  store := h.store
  entries := h.entries

theorem keepEntry
    (h : v.SameButMarks w)
    (name : String)
    {e f : Entry K V δ ω}
    (hSame : e.unmarked = f.unmarked) :
    (v.keepEntry name e).SameButMarks
      (w.keepEntry name f) where
  containers := h.containers
  store := h.store
  entries other := by
    rw [entry?_keepEntry, entry?_keepEntry]
    split
    · exact congrArg some hSame
    · exact h.entries other

theorem dropEntry
    (h : v.SameButMarks w)
    (name : String) :
    (v.dropEntry name).SameButMarks (w.dropEntry name) where
  containers := h.containers
  store := h.store
  entries other := by
    rw [entry?_dropEntry, entry?_dropEntry]
    split
    · rfl
    · exact h.entries other

theorem withStore
    (h : v.SameButMarks w)
    (s : σ) :
    SameButMarks { v with store := s } { w with store := s } :=
  ⟨h.containers, rfl, h.entries⟩

end SameButMarks

end Workspace

end OverlayCache

------------------------------------------------------------
-- Steps And Runs
------------------------------------------------------------

namespace OverlayCache

namespace Workspace

variable {K V δ ω σ : Type} [Ord K]

namespace SameButMarks

variable {v w : Workspace K V δ ω σ}

theorem callContainer
    [Std.TransOrd K]
    (h : v.SameButMarks w)
    (name : String)
    (c : Container.Call K V) :
    (v.callContainer name c).SameButMarks
      (w.callContainer name c) := by
  unfold Workspace.callContainer
  rw [h.container?_eq name]
  cases w.container? name with
  | none => exact ⟨h, rfl, rfl⟩
  | some d => exact ⟨h.keepContainer name _, rfl, rfl⟩

theorem wrap
    (h : v.SameButMarks w)
    (name : String)
    (l : Layer K V δ ω)
    (below : String) :
    (v.wrap name l below).SameButMarks
      (w.wrap name l below) := by
  unfold Workspace.wrap
  rcases h.entry?_cases below with
    ⟨hV, hW⟩ | ⟨e, f, hV, hW, hSame⟩
  · simp only [hV, hW]
    exact ⟨h, rfl, rfl⟩
  · simp only [hV, hW]
    have hStacked :
        (Entry.stacked l e).unmarked =
          (Entry.stacked l f).unmarked := by
      simp only [Entry.unmarked, hSame]
    exact
      ⟨(h.dropEntry below).keepEntry name hStacked, rfl, rfl⟩

/- Copies are of plain entries, which have no such marks. -/
theorem copy
    (h : v.SameButMarks w)
    (name source : String) :
    (v.copy name source).SameButMarks
      (w.copy name source) := by
  unfold Workspace.copy
  rcases h.entry?_cases source with
    ⟨hV, hW⟩ | ⟨e, f, hV, hW, hSame⟩
  · simp only [hV, hW]
    exact ⟨h, rfl, rfl⟩
  · simp only [hV, hW]
    cases e with
    | plain p =>
        cases Entry.eq_plain_of_unmarked hSame rfl
        exact ⟨h.keepEntry name rfl, rfl, rfl⟩
    | alone l =>
        cases f with
        | plain q => cases hSame
        | _ => exact ⟨h, rfl, rfl⟩
    | stacked l below =>
        cases f with
        | plain q => cases hSame
        | _ => exact ⟨h, rfl, rfl⟩

variable [Delta δ ω]

theorem callEntry
    (h : v.SameButMarks w)
    (name : String)
    (c : Entry.Call V δ) :
    (v.callEntry name c).SameButMarks
      (w.callEntry name c) := by
  rcases h.entry?_cases name with
    ⟨hV, hW⟩ | ⟨e, f, hV, hW, hSame⟩
  · simp only [Workspace.callEntry, hV, hW]
    exact ⟨h, rfl, rfl⟩
  · have hTurn :
        (e.call c).unmarked = (f.call c).unmarked := by
      rw [← e.unmarked_call, hSame, f.unmarked_call]
    simp only [Entry.Turn.unmarked,
      Entry.Turn.mk.injEq] at hTurn
    rcases hTurn with ⟨hEntry, hEvents, hReply⟩
    rw [callEntry_eq hV, callEntry_eq hW]
    exact
      ⟨h.keepEntry name hEntry, hEvents,
        congrArg Reply.entry hReply⟩

variable [Std.TransOrd K] [Holding V σ δ]

theorem commit
    (h : v.SameButMarks w)
    (entry container : String)
    (version : Option Version) :
    (v.commit entry container version).SameButMarks
      (w.commit entry container version) := by
  unfold Workspace.commit
  rw [h.container?_eq container, h.store]
  rcases h.entry?_cases entry with
    ⟨hV, hW⟩ | ⟨e, f, hV, hW, hSame⟩
  · simp only [hV, hW]
    exact ⟨h, rfl, rfl⟩
  · simp only [hV, hW]
    cases w.container? container with
    | none => exact ⟨h, rfl, rfl⟩
    | some c =>
        have hOutcome :
            (e.commit c w.store version).unmarked =
              (f.commit c w.store version).unmarked := by
          rw [← e.commit_unmarked, hSame, f.commit_unmarked]
        simp only [Outcome.unmarked,
          Outcome.mk.injEq] at hOutcome
        rcases hOutcome with
          ⟨hEntry, hContainer, hStore, hEvents, hResult⟩
        simp only [hContainer, hStore, hResult]
        let s := (f.commit c w.store version).store
        have hKept := (h.withStore s).keepEntry entry hEntry
        exact
          ⟨hKept.keepContainer container _, hEvents, rfl⟩

/- Every step keeps workspaces alike. -/
theorem step
    (h : v.SameButMarks w)
    (s : Step K V δ) :
    (v.step s).SameButMarks (w.step s) := by
  cases s with
  | container name limit =>
      exact ⟨h.keepContainer name _, rfl, rfl⟩
  | callContainer name c => exact h.callContainer name c
  | plain name origin version lifespan maxIdle =>
      exact ⟨h.keepEntry name rfl, rfl, rfl⟩
  | alone name key value config =>
      exact ⟨h.keepEntry name rfl, rfl, rfl⟩
  | wrap name key value config below =>
      exact h.wrap name _ below
  | copy name source => exact h.copy name source
  | callEntry name c => exact h.callEntry name c
  | commit entry container version =>
      exact h.commit entry container version

end SameButMarks

/- A step that marks a wrapping layer does nothing else. -/
theorem step_of_marksLayer
    [Delta δ ω] [Std.TransOrd K] [Holding V σ δ]
    {w : Workspace K V δ ω σ}
    {s : Step K V δ}
    (hMark : w.marksLayer s = true) :
    (w.step s).workspace.SameButMarks w ∧
      (w.step s).events = [] := by
  cases s with
  | callEntry name c =>
      cases c with
      | mark m on =>
          simp only [marksLayer, Option.any_eq_true] at hMark
          rcases hMark with ⟨e, hEntry, hWraps⟩
          simp only [step, callEntry_eq hEntry]
          refine ⟨⟨rfl, rfl, ?_⟩, rfl⟩
          intro other
          rw [entry?_keepEntry]
          split
          · next hSame =>
              rw [hSame, hEntry]
              exact
                congrArg some (e.unmarked_call_mark hWraps m on)
          · rfl
      | _ => cases hMark
  | _ => cases hMark

variable [Std.TransOrd K]
variable [Delta δ ω] [Holding V σ δ]

/-
  The steps that mark no wrapping layer come to the same in a
  run that leaves the others out.
-/
theorem SameButMarks.run
    {v w : Workspace K V δ ω σ}
    (h : v.SameButMarks w)
    (steps : List (Step K V δ)) :
    let kept := w.withoutMarks steps
    (v.run kept).SameButMarks (w.run steps) ∧
      v.log kept = w.logWithoutMarks steps ∧
      (v.log kept).flatMap (fun line => line.events) =
        (w.log steps).flatMap (fun line => line.events) := by
  induction steps generalizing v w with
  | nil => exact ⟨h, rfl, rfl⟩
  | cons s steps ih =>
      intro kept
      cases hMark : w.marksLayer s with
      | true =>
          rcases step_of_marksLayer hMark with ⟨hSame, hEvents⟩
          have hKept :
              kept =
                (w.step s).workspace.withoutMarks steps := by
            simp only [kept, withoutMarks,
              logWithoutMarks_of_mark hMark]
          rcases ih (h.trans hSame.symm) with
            ⟨hEnd, hLog, hAll⟩
          rw [hKept, logWithoutMarks_of_mark hMark]
          refine ⟨hEnd, hLog, hAll.trans ?_⟩
          simp [log, hEvents]
      | false =>
          have hTurn := h.step s
          have hKept :
              kept =
                s :: (w.step s).workspace.withoutMarks steps := by
            simp only [kept, withoutMarks,
              logWithoutMarks_of_other hMark, List.map_cons]
          rcases ih hTurn.workspace with ⟨hEnd, hLog, hAll⟩
          rw [hKept, logWithoutMarks_of_other hMark]
          refine ⟨hEnd, ?_, ?_⟩
          · simp only [log, h.marksLayer_eq, hMark,
              hTurn.events, hTurn.reply, hLog]
          · simp only [log, List.flatMap_cons, hTurn.events,
              hAll]

/-
  The bottom of a stack is the only authority on the lifecycle
  of its key.  Every level says what the bottom says, and a
  removal is taken back on top as at the bottom.

  In any run of a workspace, the steps that mark a layer over
  another entry may be left out.  The others are answered and
  reported as before, and nothing is reported by those.  In
  the end the containers are the same, and so are the entries
  in all but these marks.
-/
theorem bottom_has_authority :
    (∀ e : Entry K V δ ω,
      (∀ level ∈ e.levels,
        ∀ flag : Flag,
          flag ≠ .changed →
            level.is flag = e.bottom.is flag) ∧
        ∀ on : Bool,
          let t := e.bottom.call (.undelete on)
          e.call (.undelete on) =
            { t with
              entry := e.mapBottom (fun _ => t.entry) }) ∧
      ∀ (w : Workspace K V δ ω σ)
        (steps : List (Step K V δ)),
        let kept := w.withoutMarks steps
        (w.run kept).containers = (w.run steps).containers ∧
          (w.run kept).store = (w.run steps).store ∧
          (∀ name : String,
            let e? := Workspace.entry? (w.run steps) name
            let f? := Workspace.entry? (w.run kept) name
            f?.map Entry.unmarked = e?.map Entry.unmarked) ∧
          w.log kept = w.logWithoutMarks steps ∧
          (w.log kept).flatMap (fun line => line.events) =
            (w.log steps).flatMap
              (fun line => line.events) := by
  refine ⟨?_, ?_⟩
  · intro e
    refine ⟨?_, ?_⟩
    · intro level hMem flag hNe
      exact Entry.is_of_mem_levels hMem hNe
    · intro on t
      simp only [t, Entry.call]
      rw [e.undelete_eq]
  · intro w steps kept
    rcases (SameButMarks.refl w).run steps with
      ⟨hEnd, hLog, hEvents⟩
    exact
      ⟨hEnd.containers, hEnd.store, hEnd.entries, hLog,
        hEvents⟩

/-
  A strict layer over a new key is marked removed and invalid,
  and still takes a delta and is committed.  It is marked
  again after that, which shows in its own flags and nowhere
  else.
-/
theorem marks_left_out :
    let w : Workspace Nat Counter CounterDelta Int64 Unit :=
      { store := () }
    let steps : List (Step Nat Counter CounterDelta) :=
      [.container "c" none,
        .plain "p" (.created 1 ⟨5, 0⟩) none none none,
        .wrap "e" 1 (some ⟨5, 0⟩) ⟨true, false⟩ "p",
        .callEntry "e" (.mark .removed true),
        .callEntry "e" (.mark .valid false),
        .callEntry "e" (.append (.add 2)),
        .commit "e" "c" none,
        .callEntry "e" (.mark .removed true)]
    let kept : List (Step Nat Counter CounterDelta) :=
      [.container "c" none,
        .plain "p" (.created 1 ⟨5, 0⟩) none none none,
        .wrap "e" 1 (some ⟨5, 0⟩) ⟨true, false⟩ "p",
        .callEntry "e" (.append (.add 2)),
        .commit "e" "c" none]
    let e : Entry Nat Counter CounterDelta Int64 :=
      .stacked
        { key := 1
          value := some ⟨7, 1⟩
          work := 0
          flags := { valid := true, removed := true }
          config := ⟨true, false⟩ }
        (.plain (.existing 1 (some ⟨5, 0⟩)))
    Workspace.entry? (w.run steps) "e" = some e ∧
      e.is .removed = false ∧
      w.withoutMarks steps = kept ∧
      (w.run kept).containers = (w.run steps).containers ∧
      w.log kept = w.logWithoutMarks steps := by
  intro w steps kept e
  rcases bottom_has_authority (K := Nat) (V := Counter)
      (δ := CounterDelta) (ω := Int64) (σ := Unit) with
    ⟨hLevels, hRuns⟩
  rcases hRuns w steps with ⟨hContainers, _, _, hLog, _⟩
  have hKept : w.withoutMarks steps = kept := rfl
  rw [hKept] at hContainers hLog
  have hFlag :=
    (hLevels e).1 e List.mem_cons_self .removed (by decide)
  exact ⟨rfl, hFlag, hKept, hContainers, hLog⟩

end Workspace

end OverlayCache
