import OverlayCache.Proofs.Ledger.Agreement

/-
  Runs in which every key is seeded before it is opened.

  Such a key has one line.  It shows that line from its seed
  on, every entry of the key continues it, and every commit on
  the key is posted in it.  What is committed under the key is
  therefore its seed with the deltas of all commits folded in.

  Key definitions include:
    * `Cache.SeededOnce`
    * `Ledger.Rooted`
    * `Ledger.Shows`
    * `Ledger.Commits`

  The main statements are:
    * `Cache.committed_of_seededOnce`
-/

------------------------------------------------------------
-- Seeded Keys
------------------------------------------------------------

namespace OverlayCache

namespace Cache

variable {K α δ : Type}

namespace Step

/- The keys that have been seeded after a step. -/
def seededAfter
    (seeded : List K) : Step K α δ → List K
| .seed key _ => key :: seeded
| _ => seeded

/- A step seeds new keys only and opens seeded keys only. -/
def InTurn (seeded : List K) : Step K α δ → Prop
| .seed key _ => key ∉ seeded
| .beginWrite _ key => key ∈ seeded
| _ => True

end Step

/- Every key is seeded once, before it is opened. -/
def SeededOnce : List K → List (Step K α δ) → Prop
| _, [] => True
| seeded, s :: steps =>
    s.InTurn seeded ∧
      SeededOnce (s.seededAfter seeded) steps

theorem SeededOnce.of_append
    {seeded : List K}
    {past rest : List (Step K α δ)}
    (h : SeededOnce seeded (past ++ rest)) :
    SeededOnce seeded past := by
  induction past generalizing seeded with
  | nil => trivial
  | cons s past ih => exact ⟨h.1, ih h.2⟩

end Cache

end OverlayCache

------------------------------------------------------------
-- Rooted Ledgers
------------------------------------------------------------

namespace OverlayCache

namespace Ledger

variable {K α δ : Type}

/-
  The seeded keys show lines.  All tabs and postings of a key
  belong to the line that the key shows.
-/
structure Rooted
    (seeded : List K)
    (g : Ledger K α δ) : Prop where
  seeds :
    ∀ {key : K},
      key ∈ seeded ↔ ∃ line : Nat, g.shown key = some line
  tabs :
    ∀ {name : String} {t : Tab K δ},
      g.tabs name = some t → g.shown t.key = some t.line
  postings :
    ∀ p ∈ g.postings, g.shown p.key = some p.line

theorem rooted_empty :
    (empty : Ledger K α δ).Rooted [] where
  seeds := by simp [empty]
  tabs h := by simp [empty] at h
  postings p hMem := by simp [empty] at hMem

namespace Rooted

variable {seeded : List K}
variable {g : Ledger K α δ}

theorem keep
    (h : g.Rooted seeded)
    {t : Tab K δ}
    (hShown : g.shown t.key = some t.line)
    (name : String) :
    (g.keep name t).Rooted seeded where
  seeds := h.seeds
  tabs hTab := by
    rcases tabs_keep hTab with hNew | hOld
    · rw [hNew]
      exact hShown
    · exact h.tabs hOld
  postings := h.postings

variable [DecidableEq K]

/- A commit finds its key showing the line of the tab. -/
theorem commit
    (h : g.Rooted seeded)
    {t : Tab K δ}
    (hShown : g.shown t.key = some t.line)
    (name : String) :
    (((g.post t.posting).showLine t.key t.line).keep
      name t.close).Rooted seeded := by
  have hSame :
      (g.post t.posting).showLine t.key t.line =
        g.post t.posting :=
    showLine_eq_self hShown
  rw [hSame]
  have hPost : (g.post t.posting).Rooted seeded := by
    refine ⟨h.seeds, h.tabs, ?_⟩
    intro p hMem
    rcases mem_post hMem with hNew | hOld
    · rw [hNew]
      exact hShown
    · exact h.postings p hOld
  exact hPost.keep (t := t.close) hShown name

/- A seed gives a line to a key that showed none. -/
theorem seed
    (h : g.Rooted seeded)
    {key : K}
    (hNew : key ∉ seeded)
    (a : α) :
    ((g.beginLine key a).showLine key
      g.lines.length).Rooted (key :: seeded) := by
  have hOther :
      ∀ {k : K} {line : Nat},
        g.shown k = some line → k ≠ key := by
    intro k line hShown hEq
    subst hEq
    exact hNew (h.seeds.mpr ⟨line, hShown⟩)
  constructor
  · intro k
    by_cases hEq : k = key
    · simp [showLine, hEq]
    · simpa [showLine, beginLine, hEq] using h.seeds
  · intro name t hTab
    have hShown := h.tabs hTab
    simpa [showLine, beginLine, hOther hShown] using hShown
  · intro p hMem
    have hShown := h.postings p hMem
    simpa [showLine, beginLine, hOther hShown] using hShown

variable [Inhabited α]

/- A step in turn keeps a ledger rooted. -/
theorem step
    (h : g.Rooted seeded)
    {s : Cache.Step K α δ}
    (hTurn : s.InTurn seeded) :
    (g.step s).Rooted (s.seededAfter seeded) := by
  have hMove := g.move_step s
  generalize g.step s = g' at hMove ⊢
  cases hMove with
  | seed key a => exact h.seed hTurn a
  | resume hShown => exact h.keep hShown _
  | start hShown =>
      rcases h.seeds.mp hTurn with ⟨line, hLine⟩
      rw [hShown] at hLine
      cases hLine
  | call hTab c =>
      apply h.keep
      rw [Tab.line_call, Tab.key_call]
      exact h.tabs hTab
  | idleCall => exact h
  | @commit name t hTab hOpen =>
      exact h.commit (h.tabs hTab) name
  | idleCommit => exact h

/- The line that a key shows has all postings on the key. -/
omit [Inhabited α] in
theorem postingsIn_eq
    (h : g.Rooted seeded)
    (hSound : g.Sound)
    {key : K}
    {line : Nat}
    (hShown : g.shown key = some line) :
    g.postingsIn line = g.postingsOn key := by
  apply List.filter_congr
  intro p hMem
  have hKey := hSound.postings p hMem
  have hLine := h.postings p hMem
  apply decide_eq_decide.mpr
  constructor
  · intro hEq
    rw [hEq, hSound.shown hShown] at hKey
    exact (Option.some.inj hKey).symm
  · intro hEq
    rw [hEq, hShown] at hLine
    exact (Option.some.inj hLine).symm

end Rooted

end Ledger

end OverlayCache

------------------------------------------------------------
-- Shown Seeds
------------------------------------------------------------

namespace OverlayCache

namespace Ledger

variable {K α δ : Type} [Inhabited α]

/- A key shows a line that began with the value. -/
def Shows
    (g : Ledger K α δ)
    (key : K)
    (a : α) : Prop :=
  ∃ line : Nat,
    g.shown key = some line ∧ g.originOf line = a

namespace Rooted

variable [DecidableEq K]
variable {seeded : List K}
variable {g : Ledger K α δ}

/- A seeded key goes on to show its line. -/
theorem shown_step
    (h : g.Rooted seeded)
    {s : Cache.Step K α δ}
    (hTurn : s.InTurn seeded)
    {key : K}
    {line : Nat}
    (hShown : g.shown key = some line) :
    (g.step s).shown key = some line := by
  have hMove := g.move_step s
  generalize g.step s = g' at hMove ⊢
  cases hMove with
  | seed other a =>
      have hNe : key ≠ other := by
        intro hEq
        subst hEq
        exact hTurn (h.seeds.mpr ⟨line, hShown⟩)
      simpa [showLine, beginLine, hNe] using hShown
  | resume => exact hShown
  | start => exact hShown
  | call => exact hShown
  | idleCall => exact hShown
  | @commit name t hTab hOpen =>
      have hSame :
          (g.post t.posting).showLine t.key t.line =
            g.post t.posting :=
        showLine_eq_self (h.tabs hTab)
      rw [hSame]
      exact hShown
  | idleCommit => exact hShown

end Rooted

/- A line that has begun keeps its origin. -/
theorem originOf_step
    [DecidableEq K]
    (g : Ledger K α δ)
    (s : Cache.Step K α δ)
    {line : Nat}
    (hLine : line < g.lines.length) :
    (g.step s).originOf line = g.originOf line := by
  have hMove := g.move_step s
  generalize g.step s = g' at hMove ⊢
  cases hMove with
  | seed key a => exact originOf_beginLine g key a hLine
  | resume => rfl
  | @start name key hShown =>
      exact originOf_beginLine g key default hLine
  | call => rfl
  | idleCall => rfl
  | commit => rfl
  | idleCommit => rfl

variable [DecidableEq K]

/- A seed is shown throughout the rest of a run. -/
theorem Shows.run
    {seeded : List K}
    {g : Ledger K α δ}
    (hRooted : g.Rooted seeded)
    (hSound : g.Sound)
    {steps : List (Cache.Step K α δ)}
    (hSeeded : Cache.SeededOnce seeded steps)
    {key : K}
    {a : α}
    (h : g.Shows key a) :
    (g.run steps).Shows key a := by
  induction steps generalizing seeded g with
  | nil => exact h
  | cons s steps ih =>
      rcases h with ⟨line, hShown, hOrigin⟩
      have hLine := lt_length_of_keyOf? (hSound.shown hShown)
      apply ih (hRooted.step hSeeded.1) (hSound.step s)
        hSeeded.2
      refine ⟨line, hRooted.shown_step hSeeded.1 hShown, ?_⟩
      rw [originOf_step g s hLine]
      exact hOrigin

/- A run shows every seed that is among its steps. -/
theorem shows_run
    {seeded : List K}
    {g : Ledger K α δ}
    (hRooted : g.Rooted seeded)
    (hSound : g.Sound)
    {steps : List (Cache.Step K α δ)}
    (hSeeded : Cache.SeededOnce seeded steps)
    {key : K}
    {a : α}
    (hMem : .seed key a ∈ steps) :
    (g.run steps).Shows key a := by
  induction steps generalizing seeded g with
  | nil => simp at hMem
  | cons s steps ih =>
      have hRooted' := hRooted.step hSeeded.1
      have hSound' := hSound.step s
      rcases List.mem_cons.mp hMem with hHere | hLater
      · have hShows : (g.step s).Shows key a := by
          subst hHere
          refine ⟨g.lines.length, ?_, ?_⟩
          · simp [Ledger.step, showLine]
          · exact originOf_beginLine_new g key a
        exact hShows.run hRooted' hSound' hSeeded.2
      · exact ih hRooted' hSound' hSeeded.2 hLater

/- A run whose keys are seeded in turn keeps ledgers rooted. -/
theorem Rooted.run
    {seeded : List K}
    {g : Ledger K α δ}
    (h : g.Rooted seeded)
    {steps : List (Cache.Step K α δ)}
    (hSeeded : Cache.SeededOnce seeded steps) :
    ∃ seeded', (g.run steps).Rooted seeded' := by
  induction steps generalizing seeded g with
  | nil => exact ⟨seeded, h⟩
  | cons s steps ih =>
      exact ih (h.step hSeeded.1) hSeeded.2

end Ledger

end OverlayCache

------------------------------------------------------------
-- Commits On Other Keys
------------------------------------------------------------

namespace OverlayCache

namespace Ledger

variable {K α δ : Type}

/- A step commits an entry of a key. -/
def Commits
    (g : Ledger K α δ)
    (key : K) : Cache.Step K α δ → Prop
| .commit name =>
    ∃ t : Tab K δ, g.tabs name = some t ∧ t.key = key
| _ => False

/- Only a commit on the key adds to what is posted on it. -/
theorem deltasOn_step
    [DecidableEq K] [Inhabited α]
    {g : Ledger K α δ}
    {key : K}
    {s : Cache.Step K α δ}
    (hOther : ¬ g.Commits key s) :
    (g.step s).deltasOn key = g.deltasOn key := by
  have hMove := g.move_step s
  generalize g.step s = g' at hMove ⊢
  cases hMove with
  | seed => rfl
  | resume => rfl
  | start => rfl
  | call => rfl
  | idleCall => rfl
  | @commit name t hTab hOpen =>
      have hNe : t.key ≠ key :=
        fun hEq => hOther ⟨t, hTab, hEq⟩
      simp [deltasOn, postingsOn, keep, showLine, post,
        Tab.posting, hNe]
  | idleCommit => rfl

end Ledger

end OverlayCache

------------------------------------------------------------
-- Committed Maps Of Seeded Keys
------------------------------------------------------------

namespace OverlayCache

namespace Cache

variable {K κ ν : Type}
variable [Ord K] [Std.TransOrd K]
variable [Std.LawfulEqOrd K] [DecidableEq K]
variable [Ord κ] [Std.TransOrd κ]

/- A seeded key holds its seed and all that was committed. -/
theorem committed?_of_seed
    (config : Config)
    {steps :
      List (Step K (TrackedMap κ ν) (MapDelta κ ν))}
    (hSteps : ∀ s ∈ steps, s.KeepsValues)
    (hSeeded : SeededOnce [] steps)
    {key : K}
    {m : TrackedMap κ ν}
    (hClean : m.changes = [])
    (hSeed : .seed key m ∈ steps) :
    ((withConfig config).run steps).committed? key =
      some
        (m.foldDeltas
          ((Ledger.empty.run steps).deltasOn key)) := by
  have hSound : (Ledger.empty.run steps).Sound :=
    Ledger.sound_empty.run steps
  rcases Ledger.rooted_empty.run hSeeded with
    ⟨seeded, hRooted⟩
  rcases Ledger.shows_run Ledger.rooted_empty
      Ledger.sound_empty hSeeded hSeed with
    ⟨line, hShown, hOrigin⟩
  have hDeltas :
      (Ledger.empty.run steps).deltasIn line =
        (Ledger.empty.run steps).deltasOn key := by
    unfold Ledger.deltasIn Ledger.deltasOn
    rw [hRooted.postingsIn_eq hSound hShown]
  rw [committed?_run config hSteps key, hShown,
    Option.map_some]
  rw [← hOrigin] at hClean
  rw [Ledger.valueOf_of_clean hClean, hDeltas, hOrigin]

/-
  At every point of a run that seeds each key once, before it
  is opened, a seeded key holds its seed with the deltas of
  all commits on the key folded in, in their order.  Nothing
  is recorded in it.  What comes next leaves it alone unless
  it is a commit on the key.
-/
theorem committed_of_seededOnce
    (config : Config)
    {past rest :
      List (Step K (TrackedMap κ ν) (MapDelta κ ν))}
    (hSteps : ∀ s ∈ past ++ rest, s.KeepsValues)
    (hSeeded : SeededOnce [] (past ++ rest))
    {key : K}
    {pairs : List (κ × ν)}
    (hSeed : .seed key (.ofList pairs) ∈ past) :
    let cache := (withConfig config).run past
    let g := Ledger.empty.run past
    ∃ m : TrackedMap κ ν,
      cache.committed? key = some m ∧
        m =
          (TrackedMap.ofList pairs).foldDeltas
            (g.deltasOn key) ∧
        m.isDirty = false ∧
        ∀ next ∈ rest.head?,
          ¬ g.Commits key next →
            (cache.step next).cache.committed? key =
              some m := by
  intro cache g
  have hClean :
      (TrackedMap.ofList pairs).changes = [] := rfl
  have hPast : ∀ s ∈ past, s.KeepsValues :=
    fun s hMem => hSteps s (List.mem_append_left rest hMem)
  refine
    ⟨(TrackedMap.ofList pairs).foldDeltas (g.deltasOn key),
      ?_, rfl, ?_, ?_⟩
  · exact
      committed?_of_seed config hPast hSeeded.of_append
        hClean hSeed
  · simp [TrackedMap.isDirty, TrackedMap.changes_foldDeltas,
      hClean]
  · intro next hNext hOther
    rcases List.head?_eq_some_iff.mp hNext with
      ⟨later, hRest⟩
    have hSplit :
        past ++ rest = (past ++ [next]) ++ later := by
      simp [hRest]
    rw [hSplit] at hSteps hSeeded
    have hNow :=
      committed?_of_seed config
        (fun s hMem =>
          hSteps s (List.mem_append_left later hMem))
        hSeeded.of_append hClean
        (List.mem_append_left [next] hSeed)
    have hStep :
        (withConfig config).run (past ++ [next]) =
          (cache.step next).cache := by
      simp [run, cache]
    have hLedger :
        (Ledger.empty.run (past ++ [next])).deltasOn key =
          g.deltasOn key := by
      rw [Ledger.run_append]
      exact Ledger.deltasOn_step hOther
    rw [hStep, hLedger] at hNow
    exact hNow

/-
  Two transactions on a seeded key overlap.  Their entries are
  both used again, one of them for deltas that are rolled
  back.
-/
def overlapping :
    List (Step Nat (TrackedMap Nat Nat) (MapDelta Nat Nat)) :=
  [.seed 1 (.ofList [(1, 10)]),
    .beginWrite "a" 1,
    .beginWrite "b" 1,
    .call "a" (.append ⟨[.put 2 20]⟩),
    .call "b" (.append ⟨[.put 2 30]⟩),
    .commit "b",
    .call "b" (.append ⟨[.put 3 40]⟩),
    .commit "a",
    .call "a" (.append ⟨[.clear]⟩),
    .call "a" .rollback,
    .commit "b"]

theorem committed_overlapping :
    ∃ m : TrackedMap Nat Nat,
      ((withConfig {}).run overlapping).committed? 1 =
          some m ∧
        m.toList = [(1, 10), (2, 20), (3, 40)] ∧
        m.isDirty = false := by
  have hSteps : ∀ s ∈ overlapping ++ [], s.KeepsValues := by
    simp [overlapping, Step.KeepsValues,
      Entry.Call.KeepsValue]
  have hSeeded : SeededOnce [] (overlapping ++ []) := by
    simp [overlapping, SeededOnce, Step.InTurn,
      Step.seededAfter]
  rcases committed_of_seededOnce {} hSteps hSeeded
      List.mem_cons_self with
    ⟨m, hCommitted, hFolded, hClean, _⟩
  refine ⟨m, hCommitted, ?_, hClean⟩
  rw [hFolded]
  decide

end Cache

end OverlayCache
