import Mathlib.Data.List.Flatten
import OverlayCache.Proofs.Ledger.Agreement

/-
  Serial transactions on a key that was never seeded.

  An entry that is opened while its key shows nothing begins a
  line, and it stays with that line when it is used again.  A
  key can so come to have several lines, although only one
  transaction at a time is open on it.  What is committed under
  the key is then the line of the last commit, and the commits
  in the other lines are lost.

  Key definitions include:
    * `Ledger.Idle`
    * `Ledger.Admits`
    * `Ledger.Serial`
    * `Ledger.Undivided`

  The main statements are:
    * `Ledger.deltasIn_eq_deltasOn_iff`
    * `Cache.committed_of_serial`
-/

------------------------------------------------------------
-- Serial Runs
------------------------------------------------------------

namespace OverlayCache

/- The calls with which a transaction begins. -/
def Entry.Call.Opens {V δ : Type} : Entry.Call V δ → Prop
| .append _ => True
| .prepare => True
| _ => False

namespace Ledger

variable {K α δ : Type}

/- No entry of the key is in a transaction. -/
def Idle (g : Ledger K α δ) (key : K) : Prop :=
  ∀ {name : String} {t : Tab K δ},
    g.tabs name = some t → t.key = key → t.isOpen = false

/-
  A step does not seed the key, begins a transaction on it only
  while there is none, and ends one only after a delta.
-/
def Admits
    (g : Ledger K α δ)
    (key : K) : Cache.Step K α δ → Prop
| .seed k _ => k ≠ key
| .beginWrite _ k => k = key → g.Idle key
| .call name c =>
    ∀ t : Tab K δ,
      g.tabs name = some t →
        t.key = key →
          (c.Opens → t.isOpen = false → g.Idle key) ∧
            (c = .rollback → t.isOpen = true →
              t.pending ≠ [])
| .commit name =>
    ∀ t : Tab K δ,
      g.tabs name = some t →
        t.key = key → t.isOpen = true → t.pending ≠ []

variable [DecidableEq K] [Inhabited α]

/- The transactions on the key come one after another. -/
def Serial
    (key : K) :
    Ledger K α δ → List (Cache.Step K α δ) → Prop
| _, [] => True
| g, s :: steps =>
    g.Admits key s ∧ Serial key (g.step s) steps

end Ledger

end OverlayCache

------------------------------------------------------------
-- Ledgers Of Serial Runs
------------------------------------------------------------

namespace OverlayCache

namespace Ledger

variable {K α δ : Type} [DecidableEq K] [Inhabited α]

/-
  The lines of the key began with nothing, every commit on the
  key posted something, and without one the key shows nothing.
-/
structure Unseeded
    (key : K)
    (g : Ledger K α δ) : Prop where
  blank :
    ∀ l ∈ g.lines, l.key = key → l.origin = default
  filled :
    ∀ p ∈ g.postings, p.key = key → p.deltas ≠ []
  hidden :
    g.shown key = none ↔ g.postingsOn key = []

theorem unseeded_empty (key : K) :
    (empty : Ledger K α δ).Unseeded key where
  blank l hMem := by simp [empty] at hMem
  filled p hMem := by simp [empty] at hMem
  hidden := by simp [empty, postingsOn]

namespace Unseeded

variable {key : K}
variable {g : Ledger K α δ}

theorem keep
    (h : g.Unseeded key)
    (name : String)
    (t : Tab K δ) :
    (g.keep name t).Unseeded key :=
  ⟨h.blank, h.filled, h.hidden⟩

theorem beginLine
    (h : g.Unseeded key)
    {other : K}
    {a : α}
    (hBlank : other = key → a = default) :
    (g.beginLine other a).Unseeded key where
  blank l hMem hKey := by
    rcases List.mem_append.mp hMem with hOld | hNew
    · exact h.blank l hOld hKey
    · rw [List.mem_singleton.mp hNew] at hKey ⊢
      exact hBlank hKey
  filled := h.filled
  hidden := h.hidden

/- A key that is shown through a commit has a posting. -/
theorem commit
    (h : g.Unseeded key)
    {p : Posting K δ}
    (hFilled : p.key = key → p.deltas ≠ []) :
    ((g.post p).showLine p.key p.line).Unseeded key where
  blank := h.blank
  filled q hMem hKey := by
    rcases mem_post hMem with hNew | hOld
    · rw [hNew] at hKey ⊢
      exact hFilled hKey
    · exact h.filled q hOld hKey
  hidden := by
    by_cases hEq : key = p.key
    · simp [showLine, post, postingsOn, hEq]
    · have hNe : ¬ p.key = key := fun h => hEq h.symm
      have hHidden := h.hidden
      simpa [showLine, post, postingsOn, hEq, hNe]
        using hHidden

/- A step of a serial run leaves the key unseeded. -/
theorem step
    (h : g.Unseeded key)
    {s : Cache.Step K α δ}
    (hAdmits : g.Admits key s) :
    (g.step s).Unseeded key := by
  have hMove := g.move_step s
  generalize g.step s = g' at hMove ⊢
  cases hMove with
  | seed other a =>
      have hNe : ¬ key = other := fun h => hAdmits h.symm
      have hBegun :=
        h.beginLine (a := a)
          (fun hEq => absurd hEq hAdmits)
      refine ⟨hBegun.blank, hBegun.filled, ?_⟩
      simpa [showLine, beginLine, postingsOn, hNe]
        using hBegun.hidden
  | resume hShown => exact h.keep _ _
  | start hShown =>
      exact (h.beginLine (fun _ => rfl)).keep _ _
  | call hTab c => exact h.keep _ _
  | idleCall => exact h
  | @commit name t hTab hOpen =>
      apply keep
      exact
        h.commit (p := t.posting)
          (fun hKey => hAdmits t hTab hKey hOpen)
  | idleCommit => exact h

theorem run
    (h : g.Unseeded key)
    {steps : List (Cache.Step K α δ)}
    (hSerial : g.Serial key steps) :
    (g.run steps).Unseeded key := by
  induction steps generalizing g with
  | nil => exact h
  | cons s steps ih => exact ih (h.step hSerial.1) hSerial.2

/- A line of the key began with nothing. -/
theorem originOf
    (h : g.Unseeded key)
    {line : Nat}
    (hKey : g.keyOf? line = some key) :
    g.originOf line = default := by
  rcases Option.map_eq_some_iff.mp hKey with
    ⟨l, hLine, hEq⟩
  have hMem : l ∈ g.lines := List.mem_of_getElem? hLine
  simp [Ledger.originOf, hLine, h.blank l hMem hEq]

end Unseeded

end Ledger

end OverlayCache

------------------------------------------------------------
-- Undivided Keys
------------------------------------------------------------

namespace OverlayCache

namespace Ledger

variable {K α δ : Type} [DecidableEq K]

/-
  All commits on the key were made in the line that the key
  shows.
-/
def Undivided
    (g : Ledger K α δ)
    (key : K) : Prop :=
  ∀ p ∈ g.postings,
    p.key = key → g.shown key = some p.line

instance
    (g : Ledger K α δ)
    (key : K) : Decidable (g.Undivided key) :=
  inferInstanceAs
    (Decidable
      (∀ p ∈ g.postings,
        p.key = key → g.shown key = some p.line))

/- A line of the key has some of the postings on the key. -/
theorem postingsIn_eq_filter
    {g : Ledger K α δ}
    (hSound : g.Sound)
    {key : K}
    {line : Nat}
    (hKey : g.keyOf? line = some key) :
    g.postingsIn line =
      (g.postingsOn key).filter (fun p => p.line = line) := by
  unfold postingsIn postingsOn
  rw [List.filter_filter]
  apply List.filter_congr
  intro p hMem
  have hOwn := hSound.postings p hMem
  by_cases hEq : p.line = line
  · rw [hEq, hKey] at hOwn
    have hSame : p.key = key := (Option.some.inj hOwn).symm
    simp [hEq, hSame]
  · simp [hEq]

/-
  Postings that are left out are missed, since each of them has
  a delta.
-/
omit [DecidableEq K] in
theorem forall_of_flatMap_filter
    {line : Nat}
    {ps : List (Posting K δ)}
    (hFilled : ∀ p ∈ ps, p.deltas ≠ [])
    (hAll :
      (ps.flatMap Posting.deltas).length ≤
        ((ps.filter (fun p => p.line = line)).flatMap
          Posting.deltas).length) :
    ∀ p ∈ ps, p.line = line := by
  induction ps with
  | nil => simp
  | cons p ps ih =>
      have hHead : 0 < p.deltas.length :=
        List.length_pos_iff.mpr
          (hFilled p List.mem_cons_self)
      have hTail :=
        fun q hMem =>
          hFilled q (List.mem_cons_of_mem p hMem)
      have hRest :
          ((ps.filter (fun p => p.line = line)).flatMap
              Posting.deltas).length ≤
            (ps.flatMap Posting.deltas).length :=
        (List.filter_sublist.flatMap _).length_le
      by_cases hEq : p.line = line
      · have hLess := ih hTail (by simpa [hEq] using hAll)
        intro q hMem
        rcases List.mem_cons.mp hMem with hHere | hLater
        · rw [hHere]
          exact hEq
        · exact hLess q hLater
      · simp only [List.filter_cons, hEq, decide_false,
          Bool.false_eq_true, if_false,
          List.flatMap_cons, List.length_append] at hAll
        omega

/-
  The line that a key shows has all deltas that were committed
  on the key exactly when the key is undivided.
-/
theorem deltasIn_eq_deltasOn_iff
    [Inhabited α]
    {g : Ledger K α δ}
    (hSound : g.Sound)
    {key : K}
    (h : g.Unseeded key)
    {line : Nat}
    (hShown : g.shown key = some line) :
    g.deltasIn line = g.deltasOn key ↔ g.Undivided key := by
  have hPart :=
    postingsIn_eq_filter hSound (hSound.shown hShown)
  unfold deltasIn deltasOn
  rw [hPart]
  constructor
  · intro hAll
    have hFilled : ∀ p ∈ g.postingsOn key, p.deltas ≠ [] := by
      intro p hMem
      rcases List.mem_filter.mp hMem with ⟨hIn, hOn⟩
      exact h.filled p hIn (by simpa using hOn)
    have hLines :=
      forall_of_flatMap_filter hFilled
        (Nat.le_of_eq (congrArg List.length hAll).symm)
    intro p hMem hKey
    have hOn : p ∈ g.postingsOn key :=
      List.mem_filter.mpr ⟨hMem, by simpa using hKey⟩
    rw [hShown, hLines p hOn]
  · intro hUndivided
    have hFull :
        (g.postingsOn key).filter (fun p => p.line = line) =
          g.postingsOn key := by
      apply List.filter_eq_self.mpr
      intro p hMem
      rcases List.mem_filter.mp hMem with ⟨hIn, hOn⟩
      have hOwn := hUndivided p hIn (by simpa using hOn)
      rw [hShown] at hOwn
      simpa using (Option.some.inj hOwn).symm
    rw [hFull]

end Ledger

end OverlayCache

------------------------------------------------------------
-- Committed Maps Of Serial Runs
------------------------------------------------------------

namespace OverlayCache

namespace Cache

variable {K κ ν : Type}
variable [Ord K] [Std.TransOrd K]
variable [Std.LawfulEqOrd K] [DecidableEq K]
variable [Ord κ] [Std.TransOrd κ]

/-
  Once a serial run has committed something on a key that was
  never seeded, the key holds the deltas of the line that it
  shows.  These are all deltas that were committed on the key
  exactly when the key is undivided, and then the key holds
  the fold of them all.
-/
theorem committed_of_serial
    (config : Config)
    {steps :
      List (Step K (TrackedMap κ ν) (MapDelta κ ν))}
    (hSteps : ∀ s ∈ steps, s.KeepsValues)
    {key : K}
    (hSerial : Ledger.empty.Serial key steps)
    (hPosted : (Ledger.empty.run steps).postingsOn key ≠ []) :
    let cache := (withConfig config).run steps
    let g := Ledger.empty.run steps
    ∃ line : Nat,
      g.shown key = some line ∧
        cache.committed? key =
          some (TrackedMap.empty.foldDeltas
            (g.deltasIn line)) ∧
        (g.deltasIn line = g.deltasOn key ↔
          g.Undivided key) ∧
        (g.Undivided key →
          cache.committed? key =
            some (TrackedMap.empty.foldDeltas
              (g.deltasOn key))) := by
  intro cache g
  have hSound : g.Sound := Ledger.sound_empty.run steps
  have hUnseeded : g.Unseeded key :=
    (Ledger.unseeded_empty key).run hSerial
  have hCommitted :
      cache.committed? key = (g.shown key).map g.valueOf :=
    committed?_run config hSteps key
  cases hShown : g.shown key with
  | none => exact absurd (hUnseeded.hidden.mp hShown) hPosted
  | some line =>
      have hOrigin : g.originOf line = TrackedMap.empty :=
        hUnseeded.originOf (hSound.shown hShown)
      have hClean : (g.originOf line).changes = [] := by
        rw [hOrigin]
        rfl
      have hExact :=
        Ledger.deltasIn_eq_deltasOn_iff
          hSound hUnseeded hShown
      rw [hShown, Option.map_some,
        Ledger.valueOf_of_clean hClean, hOrigin]
        at hCommitted
      refine ⟨line, rfl, hCommitted, hExact, ?_⟩
      intro hUndivided
      rw [← hExact.mpr hUndivided]
      exact hCommitted

/-
  An entry rolls back and is used again, and then another
  entry continues its line.
-/
def undivided :
    List
      (Step String (TrackedMap String Int)
        (MapDelta String Int)) :=
  [.beginWrite "e1" "k",
    .call "e1" (.append ⟨[.put "a" 1]⟩),
    .call "e1" .rollback,
    .call "e1" (.append ⟨[.put "b" 2]⟩),
    .commit "e1",
    .beginWrite "e2" "k",
    .call "e2" (.append ⟨[.put "c" 3]⟩),
    .commit "e2"]

theorem committed_undivided :
    ((withConfig {}).run undivided).committed? "k" =
      some (TrackedMap.ofList [("b", 2), ("c", 3)]) := by
  have hSteps : ∀ s ∈ undivided, s.KeepsValues := by
    simp [undivided, Step.KeepsValues,
      Entry.Call.KeepsValue]
  have hSerial : Ledger.empty.Serial "k" undivided := by
    simp [undivided, Ledger.Serial, Ledger.Admits,
      Ledger.Idle, Ledger.step, Ledger.beginWrite,
      Ledger.commit, Ledger.empty, Ledger.keep,
      Ledger.beginLine, Ledger.post, Ledger.showLine,
      Tab.call, Tab.close, Tab.posting,
      Entry.Call.Opens]
    grind
  have hPosted :
      (Ledger.empty.run undivided).postingsOn "k" ≠ [] := by
    decide
  rcases committed_of_serial {} hSteps hSerial hPosted with
    ⟨line, _, _, _, hFold⟩
  have hUndivided :
      (Ledger.empty.run undivided).Undivided "k" := by
    decide
  exact hFold hUndivided

/-
  Two entries are opened while the key shows nothing.  The one
  that was rolled back is used again after the other has
  committed, and its commit replaces what was committed.
-/
def divided :
    List
      (Step String (TrackedMap String Int)
        (MapDelta String Int)) :=
  [.beginWrite "e1" "k",
    .call "e1" (.append ⟨[.put "a" 1]⟩),
    .call "e1" .rollback,
    .beginWrite "e2" "k",
    .call "e2" (.append ⟨[.put "b" 2]⟩),
    .commit "e2",
    .call "e1" (.append ⟨[.put "c" 3]⟩),
    .commit "e1"]

theorem committed_divided :
    (∀ s ∈ divided, s.KeepsValues) ∧
      Ledger.empty.Serial "k" divided ∧
      ((withConfig {}).run divided).committed? "k" =
        some (.ofList [("c", 3)]) ∧
      TrackedMap.empty.foldDeltas
          ((Ledger.empty.run divided).deltasOn "k") =
        .ofList [("b", 2), ("c", 3)] := by
  refine ⟨?_, ?_, ?_, ?_⟩
  · simp [divided, Step.KeepsValues, Entry.Call.KeepsValue]
  · simp [divided, Ledger.Serial, Ledger.Admits,
      Ledger.Idle, Ledger.step, Ledger.beginWrite,
      Ledger.commit, Ledger.empty, Ledger.keep,
      Ledger.beginLine, Ledger.post, Ledger.showLine,
      Tab.call, Tab.close, Tab.posting,
      Entry.Call.Opens]
    grind
  · rfl
  · rfl

end Cache

end OverlayCache
