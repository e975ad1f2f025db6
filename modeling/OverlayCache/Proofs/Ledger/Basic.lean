import OverlayCache.Cache
import OverlayCache.Proofs.Absorb

/-
  What a run of a cache amounts to, told from its steps.

  A ledger follows the steps of a cache without entries,
  handles or a container.  Of each name it knows the key that
  was opened under it and the deltas that are pending, and it
  posts the deltas of each commit.

  The commits on a key fall into lines, one for each of its
  aggregates.  A seed begins a line, and so does an entry that
  is opened while its key shows nothing.  An entry that is
  opened later continues the line which its key shows.  A
  commit makes the key show the line of its entry.

  Key definitions include:
    * `Tab`
    * `Posting`
    * `Line`
    * `Ledger`
    * `Ledger.step`
    * `Ledger.run`
    * `Ledger.Move`
    * `Ledger.deltasOn`
    * `Ledger.deltasIn`
    * `Ledger.valueOf`
    * `Ledger.Sound`
-/

------------------------------------------------------------
-- Tabs And Postings
------------------------------------------------------------

namespace OverlayCache

/-
  What a ledger knows of an entry.  The tab is open while the
  entry is in a transaction.
-/
structure Tab (K δ : Type) where
  key : K
  line : Nat
  pending : List δ := []
  isOpen : Bool := true

/- The deltas of one commit. -/
structure Posting (K δ : Type) where
  key : K
  line : Nat
  deltas : List δ

namespace Tab

variable {K V δ : Type}

/- The end of a transaction. -/
def close (t : Tab K δ) : Tab K δ :=
  { t with pending := [], isOpen := false }

/- What the commit of an open tab posts. -/
def posting (t : Tab K δ) : Posting K δ where
  key := t.key
  line := t.line
  deltas := t.pending

/-
  Follow a call.  The first write opens the tab, and whatever
  concerns neither deltas nor the transaction is left out.
-/
def call (t : Tab K δ) : Entry.Call V δ → Tab K δ
| .append d =>
    { t with pending := t.pending ++ [d], isOpen := true }
| .prepare => { t with isOpen := true }
| .rollback => t.close
| _ => t

@[simp] theorem line_call
    (t : Tab K δ)
    (c : Entry.Call V δ) :
    (t.call c).line = t.line := by
  cases c <;> rfl

@[simp] theorem key_call
    (t : Tab K δ)
    (c : Entry.Call V δ) :
    (t.call c).key = t.key := by
  cases c <;> rfl

end Tab

end OverlayCache

------------------------------------------------------------
-- Ledgers
------------------------------------------------------------

namespace OverlayCache

/- A line belongs to a key and begins with a value. -/
structure Line (K α : Type) where
  key : K
  origin : α

/-
  The lines in the order in which they began, the line that
  each key shows, the tabs by name, and the postings in the
  order of the commits.
-/
structure Ledger (K α δ : Type) where
  lines : List (Line K α) := []
  shown : K → Option Nat := fun _ => none
  tabs : String → Option (Tab K δ) := fun _ => none
  postings : List (Posting K δ) := []

namespace Ledger

variable {K α δ : Type}

/- Nothing has happened. -/
def empty : Ledger K α δ := {}

/- Keep a tab under a name. -/
def keep
    (g : Ledger K α δ)
    (name : String)
    (t : Tab K δ) : Ledger K α δ :=
  { g with
    tabs := fun n => if n = name then some t else g.tabs n }

/- Keeping a tab where it is kept already does nothing. -/
theorem keep_eq_self
    {g : Ledger K α δ}
    {name : String}
    {t : Tab K δ}
    (hTab : g.tabs name = some t) :
    g.keep name t = g := by
  have hTabs :
      (fun n => if n = name then some t else g.tabs n) =
        g.tabs := by
    funext n
    by_cases hEq : n = name
    · simp [hEq, hTab]
    · simp [hEq]
  unfold keep
  rw [hTabs]

/- A tab is the one that was kept last or an earlier one. -/
theorem tabs_keep
    {g : Ledger K α δ}
    {name other : String}
    {t t' : Tab K δ}
    (hTab : (g.keep name t).tabs other = some t') :
    t' = t ∨ g.tabs other = some t' := by
  by_cases hEq : other = name
  · left
    simp only [keep, hEq] at hTab
    exact (Option.some.inj hTab).symm
  · right
    simpa [keep, hEq] using hTab

/- Begin a line of a key with a value. -/
def beginLine
    (g : Ledger K α δ)
    (key : K)
    (a : α) : Ledger K α δ :=
  { g with lines := g.lines ++ [⟨key, a⟩] }

/- Post what was committed. -/
def post
    (g : Ledger K α δ)
    (p : Posting K δ) : Ledger K α δ :=
  { g with postings := g.postings ++ [p] }

/- A posting is the one that was made last or an earlier one. -/
theorem mem_post
    {g : Ledger K α δ}
    {p q : Posting K δ}
    (hMem : q ∈ (g.post p).postings) :
    q = p ∨ q ∈ g.postings := by
  rcases List.mem_append.mp hMem with hOld | hNew
  · exact Or.inr hOld
  · exact Or.inl (List.mem_singleton.mp hNew)

variable [DecidableEq K]

/- Make a key show a line. -/
def showLine
    (g : Ledger K α δ)
    (key : K)
    (line : Nat) : Ledger K α δ :=
  { g with
    shown := fun k =>
      if k = key then some line else g.shown k }

/- Showing a line that is shown already does nothing. -/
theorem showLine_eq_self
    {g : Ledger K α δ}
    {key : K}
    {line : Nat}
    (hShown : g.shown key = some line) :
    g.showLine key line = g := by
  have hKeys :
      (fun k => if k = key then some line else g.shown k) =
        g.shown := by
    funext k
    by_cases hEq : k = key
    · simp [hEq, hShown]
    · simp [hEq]
  unfold showLine
  rw [hKeys]

/- Follow the commit of the entry under a name. -/
def commit
    (g : Ledger K α δ)
    (name : String) : Ledger K α δ :=
  match g.tabs name with
  | none => g
  | some t =>
      if t.isOpen then
        ((g.post t.posting).showLine t.key t.line).keep
          name t.close
      else
        g

variable [Inhabited α]

/- Follow the opening of a key. -/
def beginWrite
    (g : Ledger K α δ)
    (name : String)
    (key : K) : Ledger K α δ :=
  match g.shown key with
  | some line => g.keep name { key := key, line := line }
  | none =>
      (g.beginLine key default).keep name
        { key := key, line := g.lines.length }

/- Follow a step of a cache. -/
def step (g : Ledger K α δ) :
    Cache.Step K α δ → Ledger K α δ
| .seed key a =>
    (g.beginLine key a).showLine key g.lines.length
| .beginWrite name key => g.beginWrite name key
| .call name c =>
    match g.tabs name with
    | none => g
    | some t => g.keep name (t.call c)
| .commit name => g.commit name

/- Follow steps in order. -/
def run
    (g : Ledger K α δ)
    (steps : List (Cache.Step K α δ)) : Ledger K α δ :=
  steps.foldl step g

theorem run_append
    (g : Ledger K α δ)
    (past rest : List (Cache.Step K α δ)) :
    g.run (past ++ rest) = (g.run past).run rest :=
  List.foldl_append

end Ledger

end OverlayCache

------------------------------------------------------------
-- Moves
------------------------------------------------------------

namespace OverlayCache

namespace Ledger

variable {K α δ : Type} [DecidableEq K] [Inhabited α]

/- All that a step can do to a ledger. -/
inductive Move
    (g : Ledger K α δ) :
    Cache.Step K α δ → Ledger K α δ → Prop
| seed (key : K) (a : α) :
    Move g (.seed key a)
      ((g.beginLine key a).showLine key g.lines.length)
| resume
    {name : String}
    {key : K}
    {line : Nat}
    (hShown : g.shown key = some line) :
    Move g (.beginWrite name key)
      (g.keep name { key := key, line := line })
| start
    {name : String}
    {key : K}
    (hShown : g.shown key = none) :
    Move g (.beginWrite name key)
      ((g.beginLine key default).keep name
        { key := key, line := g.lines.length })
| call
    {name : String}
    {t : Tab K δ}
    (hTab : g.tabs name = some t)
    (c : Entry.Call (Handle α) δ) :
    Move g (.call name c) (g.keep name (t.call c))
| idleCall
    (name : String)
    (c : Entry.Call (Handle α) δ) :
    Move g (.call name c) g
| commit
    {name : String}
    {t : Tab K δ}
    (hTab : g.tabs name = some t)
    (hOpen : t.isOpen = true) :
    Move g (.commit name)
      (((g.post t.posting).showLine t.key t.line).keep
        name t.close)
| idleCommit (name : String) : Move g (.commit name) g

theorem move_step
    (g : Ledger K α δ)
    (s : Cache.Step K α δ) :
    g.Move s (g.step s) := by
  cases s with
  | seed key a => exact .seed key a
  | beginWrite name key =>
      simp only [step, beginWrite]
      cases hShown : g.shown key with
      | none => exact .start hShown
      | some line => exact .resume hShown
  | call name c =>
      simp only [step]
      cases hTab : g.tabs name with
      | none => exact .idleCall name c
      | some t => exact .call hTab c
  | commit name =>
      simp only [step, commit]
      cases hTab : g.tabs name with
      | none => exact .idleCommit name
      | some t =>
          by_cases hOpen : t.isOpen = true
          · simp only [hOpen, if_true]
            exact .commit hTab hOpen
          · simp only [hOpen]
            exact .idleCommit name

end Ledger

end OverlayCache

------------------------------------------------------------
-- Readings Of A Ledger
------------------------------------------------------------

namespace OverlayCache

namespace Ledger

variable {K α δ : Type}

/- The postings of a line, in the order of the commits. -/
def postingsIn (g : Ledger K α δ) (line : Nat) :
    List (Posting K δ) :=
  g.postings.filter (fun p => p.line = line)

/- The deltas that were committed in a line. -/
def deltasIn (g : Ledger K α δ) (line : Nat) : List δ :=
  (g.postingsIn line).flatMap Posting.deltas

/- The postings of a key, in the order of the commits. -/
def postingsOn
    [DecidableEq K]
    (g : Ledger K α δ)
    (key : K) : List (Posting K δ) :=
  g.postings.filter (fun p => p.key = key)

/- The deltas that were committed on a key. -/
def deltasOn
    [DecidableEq K]
    (g : Ledger K α δ)
    (key : K) : List δ :=
  (g.postingsOn key).flatMap Posting.deltas

/- The key that a line belongs to. -/
def keyOf? (g : Ledger K α δ) (line : Nat) : Option K :=
  (g.lines[line]?).map Line.key

/- The value that a line began with. -/
def originOf
    [Inhabited α]
    (g : Ledger K α δ)
    (line : Nat) : α :=
  ((g.lines[line]?).map Line.origin).getD default

/- The value of a line absorbs one posting after another. -/
def valueOf
    [Inhabited α] [Aggregate α δ]
    (g : Ledger K α δ)
    (line : Nat) : α :=
  (g.postingsIn line).foldl
    (fun a p => Aggregate.absorb p.deltas a)
    (g.originOf line)

end Ledger

end OverlayCache

------------------------------------------------------------
-- Sound Ledgers
------------------------------------------------------------

namespace OverlayCache

namespace Ledger

variable {K α δ : Type}

theorem lt_length_of_keyOf?
    {g : Ledger K α δ}
    {line : Nat}
    {key : K}
    (hKey : g.keyOf? line = some key) :
    line < g.lines.length := by
  rcases Option.map_eq_some_iff.mp hKey with ⟨l, hLine, _⟩
  exact (List.getElem?_eq_some_iff.mp hLine).1

/- A line that has begun keeps its key. -/
theorem keyOf?_beginLine
    {g : Ledger K α δ}
    {line : Nat}
    {key : K}
    (hKey : g.keyOf? line = some key)
    (other : K)
    (a : α) :
    (g.beginLine other a).keyOf? line = some key := by
  have hLt := lt_length_of_keyOf? hKey
  rw [← hKey]
  simp [keyOf?, beginLine, List.getElem?_append_left hLt]

theorem keyOf?_beginLine_new
    (g : Ledger K α δ)
    (key : K)
    (a : α) :
    (g.beginLine key a).keyOf? g.lines.length =
      some key := by
  simp [keyOf?, beginLine]

/-
  Every line that a key shows, that a tab continues or that a
  posting was made in has begun and belongs to the key.
-/
structure Sound (g : Ledger K α δ) : Prop where
  shown :
    ∀ {key : K} {line : Nat},
      g.shown key = some line → g.keyOf? line = some key
  tabs :
    ∀ {name : String} {t : Tab K δ},
      g.tabs name = some t → g.keyOf? t.line = some t.key
  postings :
    ∀ p ∈ g.postings, g.keyOf? p.line = some p.key

theorem sound_empty :
    (empty : Ledger K α δ).Sound where
  shown h := by simp [empty] at h
  tabs h := by simp [empty] at h
  postings p hMem := by simp [empty] at hMem

theorem Sound.keep
    {g : Ledger K α δ}
    (h : g.Sound)
    {t : Tab K δ}
    (hLine : g.keyOf? t.line = some t.key)
    (name : String) :
    (g.keep name t).Sound where
  shown hShown := h.shown hShown
  tabs hTab := by
    rcases tabs_keep hTab with hNew | hOld
    · rw [hNew]
      exact hLine
    · exact h.tabs hOld
  postings := h.postings

theorem Sound.beginLine
    {g : Ledger K α δ}
    (h : g.Sound)
    (key : K)
    (a : α) :
    (g.beginLine key a).Sound where
  shown hShown := keyOf?_beginLine (h.shown hShown) key a
  tabs hTab := keyOf?_beginLine (h.tabs hTab) key a
  postings p hMem :=
    keyOf?_beginLine (h.postings p hMem) key a

theorem Sound.post
    {g : Ledger K α δ}
    (h : g.Sound)
    {p : Posting K δ}
    (hLine : g.keyOf? p.line = some p.key) :
    (g.post p).Sound where
  shown hShown := h.shown hShown
  tabs hTab := h.tabs hTab
  postings q hMem := by
    rcases mem_post hMem with hNew | hOld
    · rw [hNew]
      exact hLine
    · exact h.postings q hOld

variable [DecidableEq K]

theorem Sound.showLine
    {g : Ledger K α δ}
    (h : g.Sound)
    {key : K}
    {line : Nat}
    (hLine : g.keyOf? line = some key) :
    (g.showLine key line).Sound where
  shown {k i} hShown := by
    by_cases hEq : k = key
    · simp only [Ledger.showLine, hEq] at hShown
      cases hShown
      rw [hEq]
      exact hLine
    · simp only [Ledger.showLine, hEq] at hShown
      exact h.shown hShown
  tabs hTab := h.tabs hTab
  postings := h.postings

variable [Inhabited α]

/- Every step keeps a ledger sound. -/
theorem Sound.step
    {g : Ledger K α δ}
    (h : g.Sound)
    (s : Cache.Step K α δ) :
    (g.step s).Sound := by
  have hMove := g.move_step s
  generalize g.step s = g' at hMove ⊢
  cases hMove with
  | seed key a =>
      apply (h.beginLine key a).showLine
      exact keyOf?_beginLine_new g key a
  | resume hShown => exact h.keep (h.shown hShown) _
  | @start name key hShown =>
      apply (h.beginLine key default).keep
      exact keyOf?_beginLine_new g key default
  | call hTab c =>
      apply h.keep
      rw [Tab.line_call, Tab.key_call]
      exact h.tabs hTab
  | idleCall => exact h
  | @commit name t hTab hOpen =>
      have hLine := h.tabs hTab
      have hPosted : (g.post t.posting).Sound :=
        h.post hLine
      exact
        (hPosted.showLine hLine).keep
          (t := t.close) hLine name
  | idleCommit => exact h

theorem Sound.run
    {g : Ledger K α δ}
    (h : g.Sound)
    (steps : List (Cache.Step K α δ)) :
    (g.run steps).Sound := by
  induction steps generalizing g with
  | nil => exact h
  | cons s steps ih => exact ih (h.step s)

end Ledger

end OverlayCache
