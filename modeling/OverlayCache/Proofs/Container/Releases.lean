import OverlayCache.Counter
import OverlayCache.Proofs.Commit.Bottom
import OverlayCache.Proofs.Container.Closed
import OverlayCache.Proofs.Container.Contents

/-
  What plain entries release to a container.

  Any number of plain entries are at work, on the same or on
  different keys, and copies of them too.  Whatever is done to
  them, a container is changed by accepted commits of changed
  entries alone, and each of these concerns the key of its own
  entry.  So what a key holds after a run is told from the
  releases on that key, in order.

  Key definitions include:
    * `Release`
    * `Release.leaves`
    * `Container.TakesIn`
    * `Workspace.release?`
    * `Workspace.releases`

  The main statements are:
    * `Release.takesIn_of_carryOut`
    * `Workspace.container?_step`
    * `Workspace.container?_run`
    * `Workspace.plain_entries_release_at_commit`
-/

------------------------------------------------------------
-- Releases
------------------------------------------------------------

namespace OverlayCache

/-
  An accepted commit of a changed plain entry: the name of the
  entry, the entry as it was, and the version asked for.
-/
structure Release (K V : Type) where
  name : String
  entry : Plain K V
  version : Option Version

namespace Release

variable {K V : Type}

/- The version asked for, or else that of the entry. -/
def resulting (r : Release K V) : Option Version :=
  r.version.or r.entry.version

/-
  What is left under the key, given what was there.  A removed
  entry clears the key unless it was evicted, and otherwise a
  valid entry leaves its value, if it has one.
-/
def leaves
    (r : Release K V)
    (before : Option (Stored V)) : Option (Stored V) :=
  if r.entry.flags.removed then
    if r.entry.flags.evicted then before else none
  else if r.entry.flags.valid then
    match r.entry.value with
    | some value => some ⟨value, r.resulting⟩
    | none => before
  else
    before

/- What releases on one key leave one after another. -/
def leavesAll
    (rs : List (Release K V))
    (before : Option (Stored V)) : Option (Stored V) :=
  rs.foldl (fun s r => r.leaves s) before

end Release

/- A container has taken releases in, and nothing else. -/
structure Container.TakesIn
    {K V : Type}
    [Ord K] [Std.TransOrd K] [DecidableEq K]
    (c : Container K V)
    (rs : List (Release K V))
    (c' : Container K V) : Prop where
  limit : c'.limit = c.limit
  closed : c'.closed = c.closed
  stored? :
    ∀ k : K,
      c'.stored? k =
        Release.leavesAll
          (rs.filter (fun r => r.entry.key = k))
          (c.stored? k)

end OverlayCache

------------------------------------------------------------
-- Containers That Take Releases In
------------------------------------------------------------

namespace OverlayCache

variable {K V δ ω σ : Type}
variable [Ord K] [Std.TransOrd K] [DecidableEq K]

namespace Container.TakesIn

variable {c c' c'' : Container K V}
variable {rs qs : List (Release K V)}

theorem refl (c : Container K V) : c.TakesIn [] c :=
  ⟨rfl, rfl, fun _ => rfl⟩

theorem trans
    (h : c.TakesIn rs c')
    (h' : c'.TakesIn qs c'') :
    c.TakesIn (rs ++ qs) c'' where
  limit := h'.limit.trans h.limit
  closed := h'.closed.trans h.closed
  stored? k := by
    rw [h'.stored?, h.stored?, List.filter_append]
    exact List.foldl_append.symm

/- A container that has taken nothing in is the same. -/
theorem eq_of_nil
    [Std.LawfulEqOrd K]
    (h : c.TakesIn [] c') :
    c' = c := by
  have hEntries : c'.entries = c.entries :=
    Std.ExtTreeMap.ext_getElem? (fun {k} => h.stored? k)
  have hLimit := h.limit
  have hClosed := h.closed
  cases c
  cases c'
  simp only at hEntries hLimit hClosed
  rw [hEntries, hLimit, hClosed]

/- What a single release leaves under each key. -/
theorem stored?_single
    {r : Release K V}
    (h : c.TakesIn [r] c')
    (k : K) :
    c'.stored? k =
      if k = r.entry.key then
        r.leaves (c.stored? k)
      else
        c.stored? k := by
  rw [h.stored?]
  by_cases hKey : k = r.entry.key
  · simp [hKey, Release.leavesAll]
  · simp [hKey, Ne.symm hKey, Release.leavesAll]

/- A single release concerns its own key. -/
theorem single
    {r : Release K V}
    (hLimit : c'.limit = c.limit)
    (hClosed : c'.closed = c.closed)
    (hStored :
      ∀ k : K,
        c'.stored? k =
          if k = r.entry.key then
            r.leaves (c.stored? k)
          else
            c.stored? k) :
    c.TakesIn [r] c' where
  limit := hLimit
  closed := hClosed
  stored? k := by
    rw [hStored]
    by_cases hKey : k = r.entry.key
    · simp [hKey, Release.leavesAll]
    · simp [hKey, Ne.symm hKey, Release.leavesAll]

end Container.TakesIn

namespace Release

/- What is left under the key is what the entry publishes. -/
omit [Ord K] [Std.TransOrd K] [DecidableEq K] in
theorem leaves_eq_of_publication
    (r : Release K V)
    (before : Option (Stored V)) :
    r.leaves before =
      match r.entry.publication with
      | .nothing => before
      | .removal => none
      | .put value => some ⟨value, r.resulting⟩ := by
  unfold leaves Plain.publication
  cases r.entry.flags.removed with
  | true => cases r.entry.flags.evicted <;> rfl
  | false =>
      cases r.entry.flags.valid with
      | false => rfl
      | true => cases r.entry.value <;> rfl

/- A publication that is carried out is taken in. -/
theorem takesIn_of_carryOut
    [Std.LawfulEqOrd K]
    {r : Release K V}
    {c c' : Container K V}
    (hCarried :
      r.entry.publication.carryOut r.entry.key r.resulting c =
        .ok c') :
    c.TakesIn [r] c' := by
  have hLeaves := r.leaves_eq_of_publication
  cases hPublication : r.entry.publication with
  | nothing =>
      simp only [hPublication] at hLeaves
      rw [hPublication] at hCarried
      cases hCarried
      refine .single rfl rfl ?_
      intro k
      rw [hLeaves, ite_self]
  | removal =>
      simp only [hPublication] at hLeaves
      simp only [hPublication, Publication.carryOut,
        Repository.remove_container, Container.remove]
        at hCarried
      cases hClosed : c.closed with
      | true => simp [hClosed] at hCarried
      | false =>
          simp only [hClosed, Bool.false_eq_true, if_false,
            Except.ok.injEq] at hCarried
          subst hCarried
          refine .single rfl hClosed.symm ?_
          intro k
          rw [hLeaves]
          exact c.stored?_erase r.entry.key k
  | put value =>
      simp only [hPublication] at hLeaves
      simp only [hPublication, Publication.carryOut,
        Repository.put_container] at hCarried
      cases hRefusal : c.refusal? r.entry.key with
      | some refusal =>
          simp [Container.put, hRefusal] at hCarried
      | none =>
          rw [Container.put_of_refusal?_eq_none hRefusal]
            at hCarried
          cases hCarried
          refine .single rfl rfl ?_
          intro k
          rw [hLeaves]
          exact c.stored?_insert _ _ _

end Release

end OverlayCache

------------------------------------------------------------
-- Plain Entries In Workspaces
------------------------------------------------------------

namespace OverlayCache

variable {K V δ ω σ : Type} [Ord K]

namespace Workspace

/- Every entry of the workspace is plain. -/
def AllPlain (w : Workspace K V δ ω σ) : Prop :=
  ∀ (name : String) (e : Entry K V δ ω),
    w.entry? name = some e → ∃ p : Plain K V, e = .plain p

/- The steps that make plain entries and work with them. -/
def Step.OnPlain : Step K V δ → Prop
| .plain _ _ _ _ _ => True
| .copy _ _ => True
| .callEntry _ _ => True
| .commit _ _ _ => True
| _ => False

theorem AllPlain.keepEntry
    {w : Workspace K V δ ω σ}
    (h : w.AllPlain)
    (name : String)
    (p : Plain K V) :
    (w.keepEntry name (.plain p)).AllPlain := by
  intro other e hEntry
  rw [entry?_keepEntry] at hEntry
  split at hEntry
  · exact ⟨p, (Option.some.inj hEntry).symm⟩
  · exact h other e hEntry

variable [Std.TransOrd K] [Delta δ ω] [Holding V σ δ]

/-
  What a step releases to a container: the commit of a changed
  plain entry to it, if it is accepted.
-/
def release?
    (w : Workspace K V δ ω σ)
    (container : String) :
    Step K V δ → Option (Release K V)
| .commit name target version =>
    match w.entry? name,
        (w.commit name target version).reply with
    | some (.plain p), .entry .done =>
        if target = container ∧ p.flags.changed = true then
          some { name := name, entry := p, version := version }
        else
          none
    | _, _ => none
| _ => none

/- What the steps of a run release to a container, in order. -/
def releases
    (w : Workspace K V δ ω σ)
    (container : String) :
    List (Step K V δ) → List (Release K V)
| [] => []
| s :: steps =>
    (w.release? container s).toList ++
      (w.step s).workspace.releases container steps

/- Entries stay plain as long as no layer is made. -/
theorem AllPlain.step
    {w : Workspace K V δ ω σ}
    (h : w.AllPlain)
    {s : Step K V δ}
    (hStep : s.OnPlain) :
    (w.step s).workspace.AllPlain := by
  cases s with
  | plain name origin version lifespan maxIdle =>
      exact h.keepEntry name _
  | copy name source =>
      simp only [Workspace.step, Workspace.copy]
      split
      · exact h.keepEntry name _
      · exact h
  | callEntry name c =>
      simp only [Workspace.step, callEntry]
      cases hEntry : w.entry? name with
      | none => exact h
      | some e =>
          rcases h name e hEntry with ⟨p, rfl⟩
          rcases Entry.call_plain (ω := ω) p c with ⟨q, hCall⟩
          simp only [hCall]
          exact h.keepEntry name q
  | commit name target version =>
      simp only [Workspace.step, Workspace.commit]
      cases hEntry : w.entry? name with
      | none => exact h
      | some e =>
          cases hContainer : w.container? target with
          | none => exact h
          | some c =>
              rcases h name e hEntry with ⟨p, rfl⟩
              exact h.keepEntry name _
  | container name limit => exact hStep.elim
  | callContainer name c => exact hStep.elim
  | alone name key value config => exact hStep.elim
  | wrap name key value config below => exact hStep.elim

theorem AllPlain.run
    {w : Workspace K V δ ω σ}
    (h : w.AllPlain)
    {steps : List (Step K V δ)}
    (hSteps : ∀ s ∈ steps, s.OnPlain) :
    (w.run steps).AllPlain := by
  induction steps generalizing w with
  | nil => exact h
  | cons s steps ih =>
      rcases List.forall_mem_cons.mp hSteps with
        ⟨hFirst, hRest⟩
      exact ih (h.step hFirst) hRest

end Workspace

end OverlayCache

------------------------------------------------------------
-- Containers Under Plain Entries
------------------------------------------------------------

namespace OverlayCache

variable {K V δ ω σ : Type}
variable [Ord K] [Std.TransOrd K]
variable [Std.LawfulEqOrd K] [DecidableEq K]

/- An accepted commit of a changed entry is a release. -/
theorem Plain.takesIn_commit
    {p : Plain K V}
    (hChanged : p.flags.changed = true)
    {c : Container K V}
    {version : Option Version}
    (hOk : (p.commit (δ := δ) c version).result = .ok ())
    (name : String) :
    c.TakesIn [⟨name, p, version⟩]
      (p.commit (δ := δ) c version).container := by
  rcases Plain.commit_cases (δ := δ) hChanged c version with
    ⟨refusal, _, hRefused, _, _⟩ | ⟨hCarried, _, _⟩
  · rw [hRefused] at hOk
    cases hOk
  · exact Release.takesIn_of_carryOut hCarried

/- A refused commit leaves the container alone. -/
omit [Std.LawfulEqOrd K] [DecidableEq K] in
theorem Plain.container_commit_of_refused
    {p : Plain K V}
    {c : Container K V}
    {version : Option Version}
    {refusal : Refusal}
    (hRefused :
      (p.commit (δ := δ) c version).result =
        .error refusal) :
    (p.commit (δ := δ) c version).container = c := by
  cases hChanged : p.flags.changed with
  | false => rw [Plain.commit_of_unchanged hChanged]
  | true =>
      rcases Plain.commit_cases (δ := δ) hChanged c version
          with ⟨_, _, _, hSame, _⟩ | ⟨_, hOk, _⟩
      · exact hSame
      · rw [hRefused] at hOk
        cases hOk

namespace Workspace

variable [Delta δ ω] [Holding V σ δ]
variable {w : Workspace K V δ ω σ}
variable {container : String}
variable {c : Container K V}

/-
  A commit of a plain entry to the container is a release, or
  it leaves the container alone.
-/
theorem container?_commit
    (hHeld : w.container? container = some c)
    {name : String}
    {p : Plain K V}
    (hEntry : w.entry? name = some (.plain p))
    (version : Option Version) :
    ∃ c' : Container K V,
      (w.commit name container version).workspace.container?
          container = some c' ∧
        c.TakesIn
          (w.release? container
            (.commit name container version)).toList
          c' := by
  refine ⟨(p.commit (δ := δ) c version).container, ?_, ?_⟩
  · simp only [commit, hEntry, hHeld,
      container?_keepContainer, if_true]
    rfl
  · have hSame :
        ((Entry.plain p).commit c w.store version).result =
          (p.commit (δ := δ) c version).result := rfl
    cases hResult : (p.commit (δ := δ) c version).result with
    | error refusal =>
        rw [hResult] at hSame
        simp only [release?, commit, hEntry, hHeld, hSame,
          Option.toList_none]
        rw [Plain.container_commit_of_refused hResult]
        exact .refl c
    | ok u =>
        rw [hResult] at hSame
        simp only [release?, commit, hEntry, hHeld, hSame,
          true_and]
        cases hChanged : p.flags.changed with
        | true =>
            simp only [if_true, Option.toList_some]
            exact Plain.takesIn_commit hChanged hResult name
        | false =>
            simp only [Bool.false_eq_true, if_false,
              Option.toList_none]
            rw [Plain.commit_of_unchanged hChanged]
            exact .refl c

/- A step changes a container by what it releases to it. -/
theorem container?_step
    (hPlain : w.AllPlain)
    (hHeld : w.container? container = some c)
    {s : Step K V δ}
    (hStep : s.OnPlain) :
    ∃ c' : Container K V,
      (w.step s).workspace.container? container = some c' ∧
        c.TakesIn (w.release? container s).toList c' := by
  cases s with
  | plain name origin version lifespan maxIdle =>
      exact ⟨c, hHeld, .refl c⟩
  | copy name source =>
      refine ⟨c, ?_, .refl c⟩
      simp only [step, copy]
      split <;> exact hHeld
  | callEntry name a =>
      refine ⟨c, ?_, .refl c⟩
      simp only [step, callEntry]
      cases w.entry? name <;> exact hHeld
  | commit name target version =>
      cases hEntry : w.entry? name with
      | none =>
          refine ⟨c, ?_, ?_⟩
          · simp only [step, commit, hEntry]
            exact hHeld
          · simp only [release?, hEntry]
            exact .refl c
      | some e =>
          rcases hPlain name e hEntry with ⟨p, rfl⟩
          by_cases hSame : target = container
          · subst hSame
            exact container?_commit hHeld hEntry version
          · refine ⟨c, ?_, ?_⟩
            · have hOther : ¬ container = target :=
                fun h => hSame h.symm
              simp only [step, commit, hEntry]
              cases w.container? target with
              | none => exact hHeld
              | some d =>
                  simp only [container?_keepContainer,
                    if_neg hOther]
                  exact hHeld
            · have hNone :
                  w.release? container
                    (.commit name target version) = none := by
                simp only [release?, hEntry, hSame, false_and,
                  if_false]
                split <;> rfl
              rw [hNone]
              exact .refl c
  | container name limit => exact hStep.elim
  | callContainer name a => exact hStep.elim
  | alone name key value config => exact hStep.elim
  | wrap name key value config below => exact hStep.elim

/- A run changes it by all that its steps release to it. -/
theorem container?_run
    (hPlain : w.AllPlain)
    (hHeld : w.container? container = some c)
    {steps : List (Step K V δ)}
    (hSteps : ∀ s ∈ steps, s.OnPlain) :
    ∃ c' : Container K V,
      (w.run steps).container? container = some c' ∧
        c.TakesIn (w.releases container steps) c' := by
  induction steps generalizing w c with
  | nil => exact ⟨c, hHeld, .refl c⟩
  | cons s steps ih =>
      rcases List.forall_mem_cons.mp hSteps with
        ⟨hFirst, hRest⟩
      rcases container?_step hPlain hHeld hFirst with
        ⟨d, hAt, hTaken⟩
      rcases ih (hPlain.step hFirst) hAt hRest with
        ⟨c', hEnd, hMore⟩
      exact ⟨c', hEnd, hTaken.trans hMore⟩

end Workspace

end OverlayCache

------------------------------------------------------------
-- Entries After Their Release
------------------------------------------------------------

namespace OverlayCache

variable {K V δ ω σ : Type} [Ord K] [Std.TransOrd K]

namespace Workspace

variable [Delta δ ω] [Holding V σ δ]
variable {w : Workspace K V δ ω σ}
variable {container : String}

/- A release is the accepted commit of a changed entry. -/
theorem release?_eq_some_iff
    {s : Step K V δ}
    {r : Release K V} :
    w.release? container s = some r ↔
      s = .commit r.name container r.version ∧
        w.entry? r.name = some (.plain r.entry) ∧
        r.entry.flags.changed = true ∧
        (w.step s).reply = .entry .done := by
  constructor
  · intro hRelease
    cases s with
    | commit name target version =>
        simp only [release?] at hRelease
        split at hRelease
        · next p hEntry hReply =>
            split at hRelease
            · next hHere =>
                cases hRelease
                rw [hHere.1] at hReply ⊢
                exact ⟨rfl, hEntry, hHere.2, hReply⟩
            · cases hRelease
        · cases hRelease
    | _ => cases hRelease
  · rintro ⟨rfl, hEntry, hChanged, hReply⟩
    simp only [step] at hReply
    simp [release?, hEntry, hReply, hChanged]

/-
  A release leaves an untouched entry, which has no value any
  more if it was removed, and the version it released with.
-/
theorem entry?_of_release?
    {s : Step K V δ}
    {r : Release K V}
    (hRelease : w.release? container s = some r) :
    ∃ q : Plain K V,
      Workspace.entry? (w.step s).workspace r.name =
          some (.plain q) ∧
        q.flags = .untouched ∧
        (q.value = none ↔
          r.entry.flags.removed = true ∨
            r.entry.value = none) ∧
        q.version = r.resulting := by
  rcases release?_eq_some_iff.mp hRelease with
    ⟨rfl, hEntry, hChanged, hReply⟩
  simp only [step, commit, hEntry] at hReply ⊢
  cases hContainer : w.container? container with
  | none =>
      rw [hContainer] at hReply
      cases hReply
  | some c =>
      simp only [hContainer] at hReply
      rcases Plain.commit_cases (δ := δ) hChanged c r.version
        with ⟨refusal, _, hRefused, _⟩ | ⟨_, _, hFinished⟩
      · have hResult :
            ((Entry.plain r.entry : Entry K V δ ω).commit c
                w.store r.version).result =
              .error refusal := hRefused
        rw [hResult] at hReply
        cases hReply
      · refine ⟨(r.entry.commit (δ := δ) c r.version).entry,
          ?_, ?_⟩
        · exact
            (entry?_keepEntry _ r.name r.name _).trans
              (if_pos rfl)
        · rw [hFinished]
          refine ⟨rfl, ?_, rfl⟩
          cases hRemoved : r.entry.flags.removed <;>
            simp [Plain.finish, hRemoved]

variable [Std.LawfulEqOrd K] [DecidableEq K]

/-
  Plain entries are made, copied, called and committed in any
  order, any number of them on any keys.

  A container takes in what the run releases to it and nothing
  else.  A step that releases nothing to it leaves it alone.
  A step that does is the accepted commit of a changed entry:
  it leaves the other keys alone, clears the key of the entry
  or puts its value there, as the flags say, and the entry is
  untouched afterwards.
-/
theorem plain_entries_release_at_commit
    (hPlain : w.AllPlain)
    {c : Container K V}
    (hHeld : w.container? container = some c)
    {steps : List (Step K V δ)}
    (hSteps : ∀ s ∈ steps, s.OnPlain) :
    (∃ c' : Container K V,
      (w.run steps).container? container = some c' ∧
        c.TakesIn (w.releases container steps) c') ∧
      ∀ (before : List (Step K V δ)) (s : Step K V δ),
        before ++ [s] <+: steps →
          let v := w.run before
          let v' := (v.step s).workspace
          ∃ d d' : Container K V,
            v.container? container = some d ∧
              v'.container? container = some d' ∧
              (v.release? container s = none → d' = d) ∧
              ∀ r : Release K V,
                v.release? container s = some r →
                  (∀ k : K,
                    d'.stored? k =
                      if k = r.entry.key then
                        r.leaves (d.stored? k)
                      else
                        d.stored? k) ∧
                    ∃ q : Plain K V,
                      v'.entry? r.name = some (.plain q) ∧
                        q.flags = .untouched ∧
                        (q.value = none ↔
                          r.entry.flags.removed = true ∨
                            r.entry.value = none) ∧
                        q.version = r.resulting := by
  refine ⟨container?_run hPlain hHeld hSteps, ?_⟩
  intro before s hPrefix v v'
  have hMem : ∀ s' ∈ before ++ [s], s'.OnPlain :=
    fun s' hIn => hSteps s' (hPrefix.subset hIn)
  have hBefore : ∀ s' ∈ before, s'.OnPlain :=
    fun s' hIn => hMem s' (List.mem_append_left [s] hIn)
  have hStep : s.OnPlain := hMem s (by simp)
  have hStill : v.AllPlain := hPlain.run hBefore
  rcases container?_run hPlain hHeld hBefore with ⟨d, hAt, _⟩
  rcases container?_step hStill hAt hStep with
    ⟨d', hNext, hTaken⟩
  refine ⟨d, d', hAt, hNext, ?_, ?_⟩
  · intro hNone
    rw [hNone] at hTaken
    exact hTaken.eq_of_nil
  · intro r hRelease
    rw [hRelease] at hTaken
    exact ⟨hTaken.stored?_single, entry?_of_release? hRelease⟩

/-
  The container has room for one key.  An entry puts a value
  there, and one on another key is refused.  A copy of the
  first is removed and evicted, so its commit leaves the value.
-/
theorem plain_entries_release_in_turn :
    let w : Workspace Nat Counter CounterDelta Int64 Unit :=
      Workspace.keepContainer { store := () } "c"
        (.empty (some 1))
    let steps : List (Step Nat Counter CounterDelta) :=
      [.plain "a" (.existing 1 (some ⟨5, 0⟩)) none none none,
        .plain "b" (.created 2 ⟨6, 0⟩) none none none,
        .callEntry "a" .prepare,
        .copy "e" "a",
        .commit "a" "c" (some ⟨7⟩),
        .callEntry "b" .prepare,
        .commit "b" "c" none,
        .callEntry "e" (.mark .removed true),
        .callEntry "e" (.mark .evicted true),
        .commit "e" "c" (some ⟨8⟩)]
    ∃ c' : Container Nat Counter,
      (w.run steps).container? "c" = some c' ∧
        c'.stored? 1 = some ⟨⟨5, 0⟩, some ⟨7⟩⟩ ∧
        c'.stored? 2 = none ∧
        ∃ q : Plain Nat Counter,
          Workspace.entry? (w.run steps) "e" =
              some (.plain q) ∧
            q.flags = .untouched ∧
            q.value = none ∧
            q.version = some ⟨8⟩ := by
  intro w steps
  have hPlain : w.AllPlain := by
    intro name e hEntry
    simp [w, entry?, keepContainer] at hEntry
  have hHeld : w.container? "c" = some (.empty (some 1)) :=
    rfl
  have hSteps : ∀ s ∈ steps, s.OnPlain := by
    simp [steps, Step.OnPlain]
  let p : Plain Nat Counter :=
    (Plain.existing 1 (some ⟨5, 0⟩)).capture
  let p' : Plain Nat Counter :=
    { p with
      flags := (p.flags.raise .removed).raise .evicted }
  have hReleases :
      w.releases "c" steps =
        [⟨"a", p, some ⟨7⟩⟩, ⟨"e", p', some ⟨8⟩⟩] := by
    cbv
  have hLast :
      (w.run steps.dropLast).release? "c"
          (.commit "e" "c" (some ⟨8⟩)) =
        some ⟨"e", p', some ⟨8⟩⟩ := by
    cbv
  rcases plain_entries_release_at_commit hPlain hHeld hSteps
    with ⟨⟨c', hAt, hTaken⟩, hEach⟩
  rcases hEach steps.dropLast (.commit "e" "c" (some ⟨8⟩))
      (List.prefix_refl steps) with ⟨_, _, _, _, _, hRelease⟩
  rcases hRelease ⟨"e", p', some ⟨8⟩⟩ hLast with
    ⟨_, q, hEntry, hFlags, hValue, hVersion⟩
  rw [hReleases] at hTaken
  refine ⟨c', hAt, ?_, ?_, q, hEntry, hFlags, ?_, hVersion⟩
  · rw [hTaken.stored?]
    rfl
  · rw [hTaken.stored?]
    rfl
  · exact hValue.mpr (Or.inl rfl)

end Workspace

end OverlayCache
