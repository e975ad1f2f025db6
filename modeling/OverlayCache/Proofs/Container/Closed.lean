import OverlayCache.Counter
import OverlayCache.Proofs.Commit.Publication
import OverlayCache.Workspace.Basic

/-
  Closed containers.

  A closed container refuses every value and every removal,
  whether a client asks for it or an entry that is committed.
  The one call that still changes it empties it.  So in every
  run of a workspace it reads as when it was closed, as long
  as nobody empties it.

  Key definitions include:
    * `Container.ReadsLike`
    * `Workspace.Step.clears`

  The main statements are:
    * `Container.call_of_closed`
    * `Entry.container_commit_of_closed`
    * `Workspace.container?_run_of_closed`
    * `Workspace.closed_container_frozen_iff`
-/

------------------------------------------------------------
-- Calls On Closed Containers
------------------------------------------------------------

namespace OverlayCache

namespace Container

variable {K V : Type} [Ord K]

theorem close_of_closed
    {c : Container K V}
    (hClosed : c.closed = true) :
    c.close = c := by
  cases c with
  | mk entries limit closed =>
      cases hClosed
      rfl

variable [Std.TransOrd K]

theorem put_of_closed
    {c : Container K V}
    (hClosed : c.closed = true)
    (k : K)
    (v : V)
    (version : Option Version) :
    c.put k v version = .error .closed := by
  simp [put, refusal?, hClosed]

theorem remove_of_closed
    {c : Container K V}
    (hClosed : c.closed = true)
    (k : K) :
    c.remove k = .error .closed := by
  simp [remove, hClosed]

/- The calls that empty a container. -/
def Call.clears : Call K V → Bool
| .clear => true
| _ => false

/- A call on a closed container empties it or does nothing. -/
theorem call_of_closed
    {c : Container K V}
    (hClosed : c.closed = true)
    (a : Call K V) :
    (c.call a).1 = if a.clears then c.clear else c := by
  cases a with
  | put k v version =>
      simp [call, put_of_closed hClosed, Call.clears]
  | remove k =>
      simp [call, remove_of_closed hClosed, Call.clears]
  | clear => rfl
  | close => exact close_of_closed hClosed

/- Two containers answer all reads alike. -/
structure ReadsLike (c d : Container K V) : Prop where
  get? : ∀ k : K, c.get? k = d.get? k
  version? : ∀ k : K, c.version? k = d.version? k
  contains : ∀ k : K, c.contains k = d.contains k
  size : c.size = d.size
  isEmpty : c.isEmpty = d.isEmpty

/- Reads depend on nothing but what is stored. -/
theorem ReadsLike.of_entries
    {c d : Container K V}
    (hSame : c.entries = d.entries) :
    c.ReadsLike d where
  get? k := by simp only [Container.get?, stored?, hSame]
  version? k := by simp only [Container.version?, stored?, hSame]
  contains k := by simp only [Container.contains, hSame]
  size := by simp only [Container.size, hSame]
  isEmpty := by simp only [Container.isEmpty, hSame]

/- An emptied container reads as before if it was empty. -/
theorem readsLike_iff_of_emptied
    {c d : Container K V}
    (hEmptied : d.entries = ∅) :
    d.ReadsLike c ↔ c.isEmpty = true := by
  constructor
  · intro hLike
    rw [← hLike.isEmpty]
    exact Std.ExtTreeMap.isEmpty_iff.mpr hEmptied
  · intro hEmpty
    have hNone : c.entries = ∅ :=
      Std.ExtTreeMap.isEmpty_iff.mp hEmpty
    exact .of_entries (hEmptied.trans hNone.symm)

end Container

end OverlayCache

------------------------------------------------------------
-- Commits To Closed Containers
------------------------------------------------------------

namespace OverlayCache

variable {K V δ ω σ : Type} [Ord K] [Std.TransOrd K]
variable {c : Container K V}

/- Whatever is published, a closed container stays as it is. -/
theorem Publication.carryOut_of_closed
    (hClosed : c.closed = true)
    {key : K}
    {version : Option Version}
    {u : Publication V}
    {c' : Container K V}
    (hCarried : u.carryOut key version c = .ok c') :
    c' = c := by
  cases u with
  | nothing =>
      cases hCarried
      rfl
  | removal =>
      simp [carryOut, Container.remove_of_closed hClosed]
        at hCarried
  | put value =>
      simp [carryOut, Container.put_of_closed hClosed]
        at hCarried

theorem Plain.container_commit_of_closed
    (hClosed : c.closed = true)
    (p : Plain K V)
    (version : Option Version) :
    (p.commit (δ := δ) c version).container = c := by
  by_cases hChanged : p.flags.changed = true
  · rcases Plain.commit_cases (δ := δ) hChanged c version with
      ⟨_, _, _, hSame, _⟩ | ⟨hCarried, _, _⟩
    · exact hSame
    · exact Publication.carryOut_of_closed hClosed hCarried
  · simp only [Bool.not_eq_true] at hChanged
    rw [Plain.commit_of_unchanged hChanged]

variable [Delta δ ω] [Holding V σ δ]

namespace Entry

theorem container_settle_of_closed
    (hClosed : c.closed = true)
    (e : Entry K V δ ω)
    (version : Option Version)
    (s : σ) :
    (e.settle version c s).container = c := by
  induction e with
  | plain p => exact p.container_commit_of_closed hClosed version
  | alone l => rfl
  | stacked l below ih =>
      simp only [settle]
      cases (below.settle version c s).result with
      | error refusal => exact ih
      | ok u => exact ih

/- No commit changes a closed container. -/
theorem container_commit_of_closed
    (hClosed : c.closed = true)
    (e : Entry K V δ ω)
    (s : σ)
    (version : Option Version) :
    (e.commit c s version).container = c :=
  e.ready.1.container_settle_of_closed hClosed version s

end Entry

end OverlayCache

------------------------------------------------------------
-- Closed Containers In Workspaces
------------------------------------------------------------

namespace OverlayCache

namespace Workspace

variable {K V δ ω σ : Type} [Ord K]

/- Keeping a container concerns its own name only. -/
theorem container?_keepContainer
    (w : Workspace K V δ ω σ)
    (name other : String)
    (c : Container K V) :
    (w.keepContainer name c).container? other =
      if other = name then some c else w.container? other := by
  simp [container?, keepContainer, Std.ExtTreeMap.getElem?_insert,
    @eq_comm _ name other]

/- The steps that empty the container of a name. -/
def Step.clears (name : String) : Step K V δ → Bool
| .callContainer other call => other == name && call.clears
| _ => false

variable [Std.TransOrd K] [Delta δ ω] [Holding V σ δ]
variable {w : Workspace K V δ ω σ}
variable {name : String}
variable {c : Container K V}

/-
  A step empties a closed container or leaves it as it is,
  unless it gives the name to a new one.
-/
theorem container?_step_of_closed
    (hHeld : w.container? name = some c)
    (hClosed : c.closed = true)
    {s : Step K V δ}
    (hKept : ∀ limit : Option Nat, s ≠ .container name limit) :
    (w.step s).workspace.container? name =
      some (if s.clears name then c.clear else c) := by
  cases s with
  | container other limit =>
      have hNe : name ≠ other := by
        intro hEq
        exact hKept limit (by rw [hEq])
      simp only [step, container?_keepContainer, if_neg hNe]
      exact hHeld
  | callContainer other a =>
      by_cases hEq : name = other
      · subst hEq
        simp only [step, callContainer, hHeld,
          container?_keepContainer, if_true]
        rw [Container.call_of_closed hClosed]
        simp [Step.clears]
      · have hOther : (other == name) = false := by
          simpa using Ne.symm hEq
        simp only [Step.clears, hOther, Bool.false_and]
        simp only [step, callContainer]
        cases w.container? other with
        | none => exact hHeld
        | some d =>
            simp only [container?_keepContainer, if_neg hEq]
            exact hHeld
  | plain other origin version lifespan maxIdle => exact hHeld
  | alone other key value config => exact hHeld
  | wrap other key value config below =>
      simp only [step, wrap]
      cases w.entry? below <;> exact hHeld
  | copy other source =>
      simp only [step, copy]
      split <;> exact hHeld
  | callEntry other a =>
      simp only [step, callEntry]
      cases w.entry? other <;> exact hHeld
  | commit entry container version =>
      simp only [step, commit]
      cases hEntry : w.entry? entry with
      | none => exact hHeld
      | some e =>
          cases hContainer : w.container? container with
          | none => exact hHeld
          | some d =>
              simp only [container?_keepContainer]
              by_cases hEq : name = container
              · subst hEq
                rw [hHeld] at hContainer
                cases hContainer
                rw [if_pos rfl,
                  e.container_commit_of_closed hClosed]
                rfl
              · rw [if_neg hEq]
                exact hHeld

/- In a run it is emptied by some step, or stays as it is. -/
theorem container?_run_of_closed
    (hHeld : w.container? name = some c)
    (hClosed : c.closed = true)
    {steps : List (Step K V δ)}
    (hKept :
      ∀ limit : Option Nat, .container name limit ∉ steps) :
    (w.run steps).container? name =
      some
        (if steps.any (Step.clears name) then c.clear else c) := by
  induction steps generalizing w c with
  | nil => exact hHeld
  | cons s steps ih =>
      simp only [List.mem_cons, not_or, forall_and] at hKept
      have hFirst :=
        container?_step_of_closed hHeld hClosed
          (fun limit => Ne.symm (hKept.1 limit))
      have hRest := ih hFirst (by split <;> exact hClosed) hKept.2
      refine hRest.trans ?_
      -- Emptying a container twice is emptying it once.
      rw [List.any_cons]
      cases s.clears name with
      | true => simp [Container.clear]
      | false => simp

/-
  A container of a workspace is closed, and then anything is
  done in the workspace, on any entries and containers, except
  that its name is not given to a new container.  It stays
  closed, and it reads as when it was closed exactly when it
  was empty then or no step has emptied it since.
-/
theorem closed_container_frozen_iff
    (hHeld : w.container? name = some c)
    {steps : List (Step K V δ)}
    (hKept :
      ∀ limit : Option Nat, .container name limit ∉ steps) :
    let start := (w.callContainer name .close).workspace
    ∃ c' : Container K V,
      (start.run steps).container? name = some c' ∧
        c'.closed = true ∧
        (c'.ReadsLike c ↔
          c.isEmpty = true ∨
            ∀ s ∈ steps, s.clears name = false) := by
  intro start
  have hStart : start.container? name = some c.close := by
    simp only [start, callContainer, hHeld,
      container?_keepContainer, if_true]
    rfl
  have hRun := container?_run_of_closed hStart rfl hKept
  refine ⟨_, hRun, by split <;> rfl, ?_⟩
  cases hCleared : steps.any (Step.clears name) with
  | true =>
      have hSome :
          ¬ ∀ s ∈ steps, s.clears name = false := by
        simpa using hCleared
      simp only [if_true, hSome, or_false]
      exact Container.readsLike_iff_of_emptied rfl
  | false =>
      have hNone : ∀ s ∈ steps, s.clears name = false := by
        simpa using hCleared
      simp only [Bool.false_eq_true, if_false]
      exact ⟨fun _ => Or.inr hNone, fun _ => .of_entries rfl⟩

/- A closed container holds a counter at a version. -/
def counting : Container Nat Counter :=
  { entries := Std.ExtTreeMap.empty.insert 1 ⟨⟨5, 0⟩, some ⟨4⟩⟩ }

/-
  The container is asked for a removal, for another key and
  for the same key, and an entry that is to remove the key is
  committed to it.
-/
theorem closed_container_frozen_against_entry :
    let p : Plain Nat Counter :=
      { Plain.existing 1 (some ⟨5, 0⟩) with
        flags := { changed := true, removed := true } }
    let w : Workspace Nat Counter CounterDelta Int64 Unit :=
      (Workspace.keepContainer { store := () } "c"
        counting).keepEntry "e" (.plain p)
    let steps : List (Step Nat Counter CounterDelta) :=
      [.callContainer "c" (.remove 1),
        .callContainer "c" (.put 2 ⟨6, 0⟩ none),
        .callContainer "c" (.put 1 ⟨7, 0⟩ (some ⟨9⟩)),
        .commit "e" "c" (some ⟨8⟩)]
    let start := (w.callContainer "c" .close).workspace
    ∃ c' : Container Nat Counter,
      (start.run steps).container? "c" = some c' ∧
        c'.ReadsLike counting ∧
        c'.get? 1 = some ⟨5, 0⟩ ∧
        c'.version? 1 = some ⟨4⟩ := by
  intro p w steps start
  have hHeld : w.container? "c" = some counting :=
    (container?_keepContainer _ _ _ _).trans (if_pos rfl)
  have hKept :
      ∀ limit : Option Nat, .container "c" limit ∉ steps := by
    simp [steps]
  rcases closed_container_frozen_iff hHeld hKept with
    ⟨c', hAt, _, hFrozen⟩
  have hLike : c'.ReadsLike counting :=
    hFrozen.mpr (Or.inr (by simp [steps, Step.clears,
      Container.Call.clears]))
  refine ⟨c', hAt, hLike, ?_, ?_⟩
  · rw [hLike.get?]
    rfl
  · rw [hLike.version?]
    rfl

/- The closed container is emptied, and its key is gone. -/
theorem closed_container_emptied :
    let w : Workspace Nat Counter CounterDelta Int64 Unit :=
      Workspace.keepContainer { store := () } "c" counting
    let start := (w.callContainer "c" .close).workspace
    let steps : List (Step Nat Counter CounterDelta) :=
      [.callContainer "c" .clear]
    ∃ c' : Container Nat Counter,
      (start.run steps).container? "c" = some c' ∧
        c'.closed = true ∧
        counting.get? 1 = some ⟨5, 0⟩ ∧
        c'.get? 1 = none ∧
        ¬ c'.ReadsLike counting := by
  intro w start steps
  have hHeld : start.container? "c" = some counting.close := rfl
  have hKept :
      ∀ limit : Option Nat, .container "c" limit ∉ steps := by
    simp [steps]
  have hRun := container?_run_of_closed hHeld rfl hKept
  refine ⟨_, hRun, rfl, rfl, rfl, ?_⟩
  intro hLike
  have hSize := hLike.size
  cases hSize

end Workspace

end OverlayCache
