import Mathlib.Data.Finmap
import OverlayCache.Container.Call

/-
  Containers as bounded finite maps.

  A finite map follows the calls on a container: it takes in
  what was not refused and nothing else.  The container reads
  as this map after every run of calls, it refuses a call only
  because it was closed or has no room for a new key, and it
  never outgrows its limit.

  Key definitions include:
    * `Container.run`
    * `Contents`
    * `Contents.follow`
    * `Container.ReadsAs`
    * `Container.AnswersAs`

  The main statements are:
    * `Container.Mirrors.run`
    * `Container.size_run_le`
    * `Container.answers_as_finite_map`
-/

------------------------------------------------------------
-- Contents
------------------------------------------------------------

namespace OverlayCache

/- Stored values under finitely many keys. -/
abbrev Contents (K V : Type) :=
  Finmap (fun _ : K => Stored V)

namespace Contents

variable {K V : Type} [DecidableEq K]

/- Take in a call, unless it was refused. -/
def follow (m : Contents K V) :
    Container.Call K V → Container.Reply V → Contents K V
| _, .refused _ => m
| .put key value version, _ =>
    m.insert key ⟨value, version⟩
| .remove key, _ => m.erase key
| .clear, _ => ∅
| .close, _ => m

/- Take in calls in order, each with the reply to it. -/
def followAll
    (m : Contents K V)
    (turns : List (Container.Call K V × Container.Reply V)) :
    Contents K V :=
  turns.foldl (fun n t => n.follow t.1 t.2) m

end Contents

end OverlayCache

------------------------------------------------------------
-- Runs Of Calls
------------------------------------------------------------

namespace OverlayCache

namespace Container

variable {K V : Type} [Ord K] [Std.TransOrd K]

/- Carry out calls in order, collecting the replies. -/
def run (c : Container K V) :
    List (Call K V) → Container K V × List (Reply V)
| [] => (c, [])
| a :: calls =>
    let t := c.call a
    let r := t.1.run calls
    (r.1, t.2 :: r.2)

/- A container reads as a finite map. -/
structure ReadsAs
    (c : Container K V)
    (m : Contents K V)
    [DecidableEq K] : Prop where
  get? :
    ∀ k : K, c.get? k = (m.lookup k).map Stored.value
  version? :
    ∀ k : K, c.version? k = (m.lookup k).bind Stored.version
  contains : ∀ k : K, c.contains k = true ↔ k ∈ m
  size : c.size = m.keys.card
  isEmpty : c.isEmpty = true ↔ m = ∅

/-
  A container answers the next call as a finite map with a
  limit does, which takes nothing in any more once it is
  closed.  A closed container gives that reason even if it is
  full as well.
-/
structure AnswersAs
    (c : Container K V)
    (limit : Option Nat)
    (isClosed : Prop)
    (m : Contents K V)
    [DecidableEq K] : Prop where
  put_closed :
    ∀ (k : K) (v : V) (version : Option Version),
      (c.call (.put k v version)).2 = .refused .closed ↔
        isClosed
  put_full :
    ∀ (k : K) (v : V) (version : Option Version) (n : Nat),
      (c.call (.put k v version)).2 = .refused (.full n) ↔
        ¬ isClosed ∧
          limit = some n ∧ k ∉ m ∧ n ≤ m.keys.card
  put_done :
    ∀ (k : K) (v : V) (version : Option Version),
      (c.call (.put k v version)).2 = .done ↔
        ¬ isClosed ∧
          ∀ n : Nat,
            limit = some n → k ∈ m ∨ m.keys.card < n
  remove_refused :
    ∀ (k : K) (refusal : Refusal),
      (c.call (.remove k)).2 = .refused refusal ↔
        isClosed ∧ refusal = .closed
  remove_done :
    ∀ k : K,
      ¬ isClosed →
        (c.call (.remove k)).2 =
          .removed ((m.lookup k).map Stored.value)
  unchanged :
    ∀ (a : Call K V) (refusal : Refusal),
      (c.call a).2 = .refused refusal → (c.call a).1 = c

end Container

end OverlayCache

------------------------------------------------------------
-- Mirrored Containers
------------------------------------------------------------

namespace OverlayCache

namespace Container

variable {K V : Type} [Ord K] [Std.TransOrd K]

theorem contains_eq_isSome
    (c : Container K V)
    (k : K) :
    c.contains k = (c.stored? k).isSome :=
  Std.ExtTreeMap.contains_eq_isSome_getElem?

variable [DecidableEq K]

/- A finite map holds what a container stores. -/
def Mirrors (m : Contents K V) (c : Container K V) : Prop :=
  ∀ k : K, c.stored? k = m.lookup k

variable [Std.LawfulEqOrd K]

/- What is removed is gone, and the other keys stay. -/
theorem stored?_erase
    (c : Container K V)
    (k j : K) :
    stored? { c with entries := c.entries.erase k } j =
      if j = k then none else c.stored? j := by
  simp [stored?, Std.ExtTreeMap.getElem?_erase,
    @eq_comm _ k j]

namespace Mirrors

variable {c : Container K V} {m : Contents K V}

omit [Std.LawfulEqOrd K] in
theorem mem_iff
    (h : Mirrors m c)
    (k : K) :
    k ∈ m ↔ c.contains k = true := by
  rw [c.contains_eq_isSome, h k, Finmap.lookup_isSome]

/- The keys of the container are those of the map. -/
theorem keys_toFinset
    (h : Mirrors m c) :
    c.entries.keys.toFinset = m.keys := by
  ext k
  rw [List.mem_toFinset, Std.ExtTreeMap.mem_keys,
    Finmap.mem_keys, h.mem_iff]
  exact Std.ExtTreeMap.contains_iff_mem.symm

theorem size_eq
    (h : Mirrors m c) :
    c.size = m.keys.card := by
  rw [← h.keys_toFinset,
    List.toFinset_card_of_nodup Std.ExtTreeMap.nodup_keys]
  exact Std.ExtTreeMap.length_keys.symm

omit [Std.LawfulEqOrd K] in
theorem isEmpty_iff
    (h : Mirrors m c) :
    c.isEmpty = true ↔ m = ∅ := by
  have hNoKeys : c.isEmpty = true ↔ ∀ k : K, k ∉ m := by
    simp only [h.mem_iff, Bool.not_eq_true]
    exact
      Std.ExtTreeMap.isEmpty_iff.trans
        Std.ExtTreeMap.eq_empty_iff_forall_contains
  rw [hNoKeys]
  constructor
  · intro hNone
    apply Finmap.ext_lookup
    intro k
    rw [Finmap.lookup_empty]
    exact Finmap.lookup_eq_none.mpr (hNone k)
  · intro hEmpty k
    rw [hEmpty]
    exact Finmap.notMem_empty

theorem readsAs
    (h : Mirrors m c) :
    c.ReadsAs m where
  get? k := by rw [Container.get?, h k]
  version? k := by rw [Container.version?, h k]
  contains k := (h.mem_iff k).symm
  size := h.size_eq
  isEmpty := h.isEmpty_iff

end Mirrors

end Container

end OverlayCache

------------------------------------------------------------
-- Single Calls
------------------------------------------------------------

namespace OverlayCache

namespace Container

variable {K V : Type} [Ord K] [Std.TransOrd K]

/- A value is stored unless there is a reason against it. -/
theorem call_put
    (c : Container K V)
    (k : K)
    (v : V)
    (version : Option Version) :
    c.call (.put k v version) =
      match c.refusal? k with
      | some refusal => (c, .refused refusal)
      | none =>
          ({ c with entries := c.entries.insert k ⟨v, version⟩ },
            .done) := by
  simp only [call, put]
  cases c.refusal? k <;> rfl

/- A key is removed unless the container is closed. -/
theorem call_remove
    (c : Container K V)
    (k : K) :
    c.call (.remove k) =
      if c.closed then
        (c, .refused .closed)
      else
        ({ c with entries := c.entries.erase k },
          .removed (c.get? k)) := by
  simp only [call, remove]
  cases c.closed <;> rfl

theorem refusal?_eq_closed_iff
    (c : Container K V)
    (k : K) :
    c.refusal? k = some .closed ↔ c.closed = true := by
  unfold refusal?
  cases hClosed : c.closed with
  | true => simp
  | false =>
      cases c.limit with
      | none => simp
      | some n => simp

theorem refusal?_eq_full_iff
    (c : Container K V)
    (k : K)
    (n : Nat) :
    c.refusal? k = some (.full n) ↔
      c.closed = false ∧
        c.limit = some n ∧
          c.contains k = false ∧ n ≤ c.size := by
  unfold refusal?
  cases hClosed : c.closed with
  | true => simp
  | false =>
      cases hLimit : c.limit with
      | none => simp
      | some l =>
          have hHeld :
              (!c.contains k && decide (l ≤ c.size)) = true ↔
                c.contains k = false ∧ l ≤ c.size := by
            simp
          simp only [Bool.false_eq_true, if_false, hHeld]
          constructor
          · intro hRefused
            split at hRefused
            · next hNoRoom =>
                cases hRefused
                exact ⟨trivial, rfl, hNoRoom⟩
            · cases hRefused
          · rintro ⟨_, hEq, hNoRoom⟩
            cases hEq
            rw [if_pos hNoRoom]

/- There is room for a key that is there or is one too few. -/
theorem refusal?_eq_none_iff
    (c : Container K V)
    (k : K) :
    c.refusal? k = none ↔
      c.closed = false ∧
        ∀ n : Nat,
          c.limit = some n →
            c.contains k = true ∨ c.size < n := by
  have hClosed := c.refusal?_eq_closed_iff k
  have hFull := c.refusal?_eq_full_iff k
  constructor
  · intro hTaken
    rw [hTaken] at hClosed
    have hOpen : c.closed = false := by simpa using hClosed
    refine ⟨hOpen, ?_⟩
    intro n hLimit
    have hRoom := hFull n
    rw [hTaken] at hRoom
    simp only [hOpen, hLimit, reduceCtorEq, true_and,
      false_iff, not_and, not_le] at hRoom
    cases hHeld : c.contains k with
    | true => exact Or.inl rfl
    | false => exact Or.inr (hRoom hHeld)
  · rintro ⟨hOpen, hRoom⟩
    cases hRefused : c.refusal? k with
    | none => rfl
    | some refusal =>
        cases refusal with
        | closed =>
            rw [hClosed.mp hRefused] at hOpen
            cases hOpen
        | full n =>
            rcases (hFull n).mp hRefused with
              ⟨_, hLimit, hAbsent, hNoRoom⟩
            rcases hRoom n hLimit with hHeld | hLt
            · rw [hAbsent] at hHeld
              cases hHeld
            · omega

/- A refused call leaves the container as it was. -/
theorem call_of_refused
    {c : Container K V}
    {a : Call K V}
    {refusal : Refusal}
    (hRefused : (c.call a).2 = .refused refusal) :
    (c.call a).1 = c := by
  cases a with
  | put k v version =>
      rw [call_put] at hRefused ⊢
      cases hReason : c.refusal? k with
      | none => simp [hReason] at hRefused
      | some reason => rfl
  | remove k =>
      rw [call_remove] at hRefused ⊢
      cases hClosed : c.closed with
      | true => rfl
      | false => simp [hClosed] at hRefused
  | clear => cases hRefused
  | close => cases hRefused

/- Only closing a container closes it, and for good. -/
theorem closed_call
    (c : Container K V)
    (a : Call K V) :
    (c.call a).1.closed = true ↔
      c.closed = true ∨ .close = a := by
  cases a with
  | put k v version =>
      rw [call_put]
      cases c.refusal? k <;> simp
  | remove k =>
      rw [call_remove]
      cases hClosed : c.closed <;> simp [hClosed]
  | clear => simp [call, clear]
  | close => simp [call, close]

@[simp] theorem limit_call
    (c : Container K V)
    (a : Call K V) :
    (c.call a).1.limit = c.limit := by
  cases a with
  | put k v version =>
      rw [call_put]
      cases c.refusal? k <;> rfl
  | remove k =>
      rw [call_remove]
      cases hClosed : c.closed <;> rfl
  | clear => rfl
  | close => rfl

/- No call takes a container beyond its limit. -/
theorem size_call_le
    {c : Container K V}
    {n : Nat}
    (hLimit : c.limit = some n)
    (hSize : c.size ≤ n)
    (a : Call K V) :
    (c.call a).1.size ≤ n := by
  cases a with
  | put k v version =>
      rw [call_put]
      cases hTaken : c.refusal? k with
      | some refusal => exact hSize
      | none =>
          have hRoom :=
            ((c.refusal?_eq_none_iff k).mp hTaken).2 n hLimit
          have hInserted :
              (c.entries.insert k ⟨v, version⟩).size =
                if c.contains k then c.size else c.size + 1 :=
            Std.ExtTreeMap.size_insert
          change (c.entries.insert k ⟨v, version⟩).size ≤ n
          rw [hInserted]
          split
          · exact hSize
          · next hNew =>
              rcases hRoom with hHeld | hLt
              · exact absurd hHeld hNew
              · exact hLt
  | remove k =>
      rw [call_remove]
      cases c.closed with
      | true => exact hSize
      | false =>
          have hErased : (c.entries.erase k).size ≤ c.size :=
            Std.ExtTreeMap.size_erase_le
          exact hErased.trans hSize
  | clear => exact Nat.zero_le n
  | close => exact hSize

variable [DecidableEq K] [Std.LawfulEqOrd K]

/- The finite map follows a call. -/
theorem Mirrors.call
    {c : Container K V}
    {m : Contents K V}
    (h : Mirrors m c)
    (a : Call K V) :
    Mirrors (m.follow a (c.call a).2) (c.call a).1 := by
  cases a with
  | put k v version =>
      rw [call_put]
      cases c.refusal? k with
      | some refusal => exact h
      | none =>
          intro j
          simp only [stored?_insert, Contents.follow]
          by_cases hEq : j = k
          · subst hEq
            simp
          · rw [if_neg hEq, Finmap.lookup_insert_of_ne m hEq]
            exact h j
  | remove k =>
      rw [call_remove]
      by_cases hClosed : c.closed = true
      · rw [if_pos hClosed]
        exact h
      · rw [if_neg hClosed]
        intro j
        simp only [stored?_erase, Contents.follow]
        by_cases hEq : j = k
        · subst hEq
          simp
        · rw [if_neg hEq, Finmap.lookup_erase_ne hEq]
          exact h j
  | clear =>
      intro j
      simp [Container.call, clear, stored?, Contents.follow]
  | close => exact h

/- The next call is answered as the finite map says. -/
theorem Mirrors.answersAs
    {c : Container K V}
    {m : Contents K V}
    {isClosed : Prop}
    (h : Mirrors m c)
    (hClosed : c.closed = true ↔ isClosed) :
    c.AnswersAs c.limit isClosed m where
  put_closed k v version := by
    rw [call_put, ← hClosed, ← c.refusal?_eq_closed_iff k]
    cases c.refusal? k <;> simp
  put_full k v version n := by
    rw [call_put, ← hClosed, h.mem_iff, ← h.size_eq]
    have hFull := c.refusal?_eq_full_iff k n
    simp only [Bool.not_eq_true, ← hFull]
    cases c.refusal? k <;> simp
  put_done k v version := by
    rw [call_put, ← hClosed]
    have hTaken := c.refusal?_eq_none_iff k
    simp only [h.mem_iff, ← h.size_eq, Bool.not_eq_true,
      ← hTaken]
    cases c.refusal? k <;> simp
  remove_refused k refusal := by
    rw [call_remove, ← hClosed]
    cases c.closed with
    | true => simp [eq_comm]
    | false => simp
  remove_done k hOpen := by
    rw [call_remove, ← h k]
    rw [← hClosed] at hOpen
    simp [hOpen, get?]
  unchanged a refusal hRefused := call_of_refused hRefused

end Container

end OverlayCache

------------------------------------------------------------
-- Runs From The Start
------------------------------------------------------------

namespace OverlayCache

namespace Container

variable {K V : Type} [Ord K] [Std.TransOrd K]

@[simp] theorem limit_run
    (c : Container K V)
    (calls : List (Call K V)) :
    (c.run calls).1.limit = c.limit := by
  induction calls generalizing c with
  | nil => rfl
  | cons a calls ih =>
      exact (ih (c.call a).1).trans (c.limit_call a)

theorem closed_run
    (c : Container K V)
    (calls : List (Call K V)) :
    (c.run calls).1.closed = true ↔
      c.closed = true ∨ .close ∈ calls := by
  induction calls generalizing c with
  | nil => simp [run]
  | cons a calls ih =>
      rw [List.mem_cons, ← or_assoc, ← closed_call]
      exact ih (c.call a).1

theorem size_run_le
    {c : Container K V}
    {n : Nat}
    (hLimit : c.limit = some n)
    (hSize : c.size ≤ n)
    (calls : List (Call K V)) :
    (c.run calls).1.size ≤ n := by
  induction calls generalizing c with
  | nil => exact hSize
  | cons a calls ih =>
      have hKept : (c.call a).1.limit = some n :=
        (c.limit_call a).trans hLimit
      exact ih hKept (size_call_le hLimit hSize a)

variable [DecidableEq K] [Std.LawfulEqOrd K]

/- The finite map follows a run of calls. -/
theorem Mirrors.run
    {c : Container K V}
    {m : Contents K V}
    (h : Mirrors m c)
    (calls : List (Call K V)) :
    Mirrors
      (m.followAll (calls.zip (c.run calls).2))
      (c.run calls).1 := by
  induction calls generalizing c m with
  | nil => exact h
  | cons a calls ih => exact ih (h.call a)

/-
  A container that started out empty, with a limit or without
  one, has gone through a run of calls.  It reads as the
  finite map that took in every call that was not refused, it
  answers the next call as that map does under the limit, and
  it holds no more keys than the limit allows.
-/
theorem answers_as_finite_map
    (limit : Option Nat)
    (calls : List (Call K V)) :
    let r := (empty limit : Container K V).run calls
    let m := Contents.followAll ∅ (calls.zip r.2)
    r.1.ReadsAs m ∧
      r.1.AnswersAs limit (.close ∈ calls) m ∧
      ∀ n : Nat, limit = some n → r.1.size ≤ n := by
  intro r m
  have hStart :
      Mirrors (∅ : Contents K V) (empty limit) := by
    intro k
    simp [stored?, empty]
  have hMirrors : Mirrors m r.1 := hStart.run calls
  have hClosed : r.1.closed = true ↔ .close ∈ calls := by
    have hRun := (empty limit : Container K V).closed_run calls
    exact hRun.trans (by simp [empty])
  have hLimit : r.1.limit = limit := limit_run _ calls
  refine ⟨hMirrors.readsAs, ?_, ?_⟩
  · rw [← hLimit]
    exact hMirrors.answersAs hClosed
  · intro n hSome
    exact size_run_le hSome (Nat.zero_le n) calls

/-
  A container for one key is offered a second one, takes a new
  value for the first one, and is closed.
-/
theorem answers_of_closed_container :
    let calls : List (Call Nat Nat) :=
      [.put 1 10 (some ⟨4⟩), .put 2 20 none, .put 1 11 none,
        .close, .put 1 12 (some ⟨5⟩), .remove 1]
    let r := (empty (some 1) : Container Nat Nat).run calls
    let m := Contents.followAll ∅ (calls.zip r.2)
    m = Finmap.singleton 1 ⟨11, none⟩ ∧
      r.1.get? 1 = some 11 ∧
      r.1.version? 1 = none ∧
      r.1.contains 2 = false ∧
      r.1.size ≤ 1 ∧
      (r.1.call (.put 2 20 none)).2 = .refused .closed := by
  intro calls r m
  rcases answers_as_finite_map (some 1) calls with
    ⟨hReads, hAnswers, hSize⟩
  have hHeld : m = Finmap.singleton 1 ⟨11, none⟩ := rfl
  refine ⟨hHeld, ?_, ?_, ?_, hSize 1 rfl, ?_⟩
  · exact (hReads.get? 1).trans (by rfl)
  · exact (hReads.version? 1).trans (by rfl)
  · have hAbsent : ¬ 2 ∈ m := by
      rw [hHeld]
      decide
    have hFalse := mt (hReads.contains 2).mp hAbsent
    simpa using hFalse
  · exact
      (hAnswers.put_closed 2 20 none).mpr (by simp [calls])

end Container

end OverlayCache
