import OverlayCache.Opener
import OverlayCache.Proofs.Commit.Version
import OverlayCache.Proofs.Ledger.Holder

/-
  Transactions on one key, by one entry or by many.

  An entry that was opened on a key may carry out any number
  of transactions.  A client may as well open the key anew for
  each of them.  As long as nobody else writes to the key, both
  leave the same behind after every transaction: what the
  committed deltas make of the aggregate that was stored, at
  the last version that a commit asked for.

  Key definitions include:
    * `Transaction`
    * `Stock`
    * `Stock.found`
    * `Transaction.carryOut`
    * `Transaction.outcome`
    * `Opener.reuse`
    * `Opener.anew`

  The main statements are:
    * `Entry.Stands.carryOut`
    * `Opener.found_reuse`
    * `Opener.found_anew`
    * `Opener.reuse_leaves_what_anew_leaves`
-/

------------------------------------------------------------
-- Transactions
------------------------------------------------------------

namespace OverlayCache

/- How a transaction ends. -/
inductive Ending where
| rollback
| commit (version : Option Version)

/- Deltas that are appended, at least one, and then an end. -/
structure Transaction (δ : Type) where
  deltas : List δ
  ending : Ending
  written : deltas ≠ []

/- A container of handles, and the aggregates they name. -/
structure Stock (K α : Type) [Ord K] where
  container : Container K (Handle α)
  store : Heap α

variable {K α δ ω : Type}

/- The aggregate under a key, with its version. -/
def Stock.found
    [Ord K] [Std.TransOrd K] [Inhabited α]
    (b : Stock K α)
    (k : K) : Option (α × Option Version) :=
  (b.container.stored? k).map
    (fun s => (b.store.read s.value, s.version))

namespace Transaction

/- The entry after all deltas of the transaction. -/
def write
    [Delta δ ω]
    (t : Transaction δ)
    (e : Entry K (Handle α) δ ω) : Entry K (Handle α) δ ω :=
  t.deltas.foldl (fun e d => (e.call (.append d)).entry) e

/-
  What a transaction makes of what is found under its key.  A
  key that was absent starts from a default aggregate.
-/
def outcome
    [Inhabited α] [Aggregate α δ]
    (t : Transaction δ)
    (found : Option (α × Option Version)) :
    Option (α × Option Version) :=
  match t.ending with
  | .rollback => found
  | .commit version =>
      some
        (Aggregate.absorb t.deltas
            ((found.map Prod.fst).getD default),
          version.or (found.bind Prod.snd))

variable [Ord K] [Std.TransOrd K]
variable [Inhabited α] [Delta δ ω] [Aggregate α δ]

/- Carry a transaction out on an entry. -/
def carryOut
    (t : Transaction δ)
    (e : Entry K (Handle α) δ ω)
    (b : Stock K α) : Entry K (Handle α) δ ω × Stock K α :=
  match t.ending with
  | .rollback => (((t.write e).call .rollback).entry, b)
  | .commit version =>
      let o := (t.write e).commit b.container b.store version
      (o.entry, { container := o.container, store := o.store })

end Transaction

namespace Opener

variable [Ord K] [Std.TransOrd K]
variable [Inhabited α] [Delta δ ω] [Aggregate α δ]

/- Open a key, which may need a new aggregate. -/
def openOn
    (o : Opener)
    (b : Stock K α)
    (k : K) : Entry K (Handle α) δ ω × Stock K α :=
  let opened := o.beginWrite b.container b.store k
  (opened.entry, { b with store := opened.store })

/- Open a key once and carry all transactions out on it. -/
def reuse
    (o : Opener)
    (b : Stock K α)
    (k : K)
    (ts : List (Transaction δ)) : Stock K α :=
  (ts.foldl (fun r t => t.carryOut r.1 r.2) (o.openOn b k)).2

/- Open a key for each transaction. -/
def anew
    (o : Opener)
    (b : Stock K α)
    (k : K)
    (ts : List (Transaction δ)) : Stock K α :=
  ts.foldl
    (fun b t =>
      let r := o.openOn b k
      (t.carryOut r.1 r.2).2)
    b

end Opener

end OverlayCache

------------------------------------------------------------
-- Entries Between Transactions
------------------------------------------------------------

namespace OverlayCache

variable {K α δ ω : Type}

/- The container takes every key. -/
structure Stock.IsOpen [Ord K] (b : Stock K α) : Prop where
  unlimited : b.container.limit = none
  unclosed : b.container.closed = false

/-
  An entry stands for a key between transactions.  It holds
  the handle that is stored under the key and knows its
  version.  If the key is absent, it holds a handle to an
  aggregate that is still the default one, and no version.
-/
structure Entry.Stands
    [Ord K] [Std.TransOrd K] [Inhabited α]
    (e : Entry K (Handle α) δ ω)
    (k : K)
    (b : Stock K α)
    (t : Tab K δ) : Prop where
  kept : t.Kept e
  key : t.key = k
  pending : t.pending = []
  stored :
    b.container.stored? k =
        some ⟨⟨t.line⟩, e.bottom.version⟩ ∨
      b.container.stored? k = none ∧
        e.bottom.version = none ∧
        b.store.read ⟨t.line⟩ = default

namespace Tab

variable {tab : Tab K δ}
variable {e : Entry K (Handle α) δ ω}

/- Appended deltas are pending in the tab, which is open. -/
theorem Kept.appendAll
    [Delta δ ω]
    (h : tab.Kept e)
    {ds : List δ}
    (hSome : ds ≠ []) :
    let e' :=
      ds.foldl (fun e d => (e.call (.append d)).entry) e
    { tab with
        pending := tab.pending ++ ds
        isOpen := true }.Kept e' ∧
      e'.bottom = e.bottom := by
  induction ds generalizing tab e with
  | nil => exact absurd rfl hSome
  | cons d ds ih =>
      have hFirst := h.call (c := .append d) trivial
      have hBottom :
          (e.call (.append d)).entry.bottom = e.bottom := by
        cases h with
        | layered hBy =>
            simp only [Entry.call, hBy.entry_append]
            rfl
      cases ds with
      | nil => exact ⟨hFirst, hBottom⟩
      | cons d' ds =>
          rcases ih hFirst (by simp) with ⟨hKept, hRest⟩
          refine ⟨?_, hRest.trans hBottom⟩
          simpa [Tab.call] using hKept

/- A rollback keeps the version. -/
theorem Kept.version_bottom_rollback
    [Delta δ ω]
    (h : tab.Kept e) :
    (e.call .rollback).entry.bottom.version =
      e.bottom.version := by
  cases h with
  | @layered l p hBy =>
      exact Entry.version_rollback (δ := δ) p

end Tab

namespace Entry.Stands

variable [Ord K] [Std.TransOrd K] [Inhabited α]
variable {e : Entry K (Handle α) δ ω}
variable {k : K}
variable {b : Stock K α}
variable {tab : Tab K δ}

/- What a commit starts from is found, or else the default. -/
theorem value_found
    (h : e.Stands k b tab) :
    ((b.found k).map Prod.fst).getD default =
      b.store.read ⟨tab.line⟩ := by
  rcases h.stored with hStored | ⟨hAbsent, _, hFresh⟩
  · simp [Stock.found, hStored]
  · simp [Stock.found, hAbsent, hFresh]

theorem version_found
    (h : e.Stands k b tab) :
    (b.found k).bind Prod.snd = e.bottom.version := by
  rcases h.stored with hStored | ⟨hAbsent, hNone, _⟩
  · simp [Stock.found, hStored]
  · simp [Stock.found, hAbsent, hNone]

variable [Delta δ ω]

/- An entry stands for the key again after a rollback. -/
theorem rollback
    (h : e.Stands k b tab)
    (t : Transaction δ) :
    ((t.write e).call .rollback).entry.Stands k b
      tab.close := by
  rcases h.kept.appendAll t.written with ⟨hKept, hBottom⟩
  have hVersion := hKept.version_bottom_rollback
  rw [hBottom] at hVersion
  have hStored := h.stored
  rw [← hVersion] at hStored
  exact
    ⟨hKept.call (c := .rollback) trivial, h.key, rfl,
      hStored⟩

variable [Std.LawfulEqOrd K] [DecidableEq K]
variable [Aggregate α δ]

/-
  So it does after a commit, which stores the handle of the
  entry with what its aggregate absorbed.
-/
theorem commit
    (h : e.Stands k b tab)
    (hOpen : b.IsOpen)
    (t : Transaction δ)
    (version : Option Version) :
    let o := (t.write e).commit b.container b.store version
    let b' : Stock K α :=
      { container := o.container, store := o.store }
    b'.IsOpen ∧
      o.entry.Stands k b' tab.close ∧
      b'.found k =
        some
          (Aggregate.absorb t.deltas
              (((b.found k).map Prod.fst).getD default),
            version.or ((b.found k).bind Prod.snd)) := by
  intro o b'
  rcases h.kept.appendAll t.written with ⟨hKept, hBottom⟩
  have hTaken : b.container.refusal? tab.key = none :=
    Container.refusal?_of_open
      hOpen.unlimited hOpen.unclosed tab.key
  rcases hKept.commit_of_open rfl hTaken b.store version with
    ⟨_, hContainer, hStore, hClosed, hVersion⟩
  rw [hBottom, ← h.version_found] at hContainer hVersion
  simp only [h.pending, List.nil_append] at hStore
  have hStored :
      b'.container.stored? k =
        some
          ⟨⟨tab.line⟩,
            version.or ((b.found k).bind Prod.snd)⟩ := by
    simp only [b', o, Transaction.write, hContainer,
      Container.stored?_insert, h.key, if_true]
  have hRead :
      b'.store.read ⟨tab.line⟩ =
        Aggregate.absorb t.deltas
          (b.store.read ⟨tab.line⟩) := by
    simp only [b', o, Transaction.write, hStore,
      Heap.read_replay, if_true]
  refine ⟨?_, ⟨hClosed, h.key, rfl, Or.inl ?_⟩, ?_⟩
  · simp only [b', o, Transaction.write, hContainer]
    exact ⟨hOpen.unlimited, hOpen.unclosed⟩
  · rw [hStored]
    simp only [o, Transaction.write, hVersion]
    rfl
  · simp only [Stock.found, hStored, Option.map_some, hRead]
    rw [← h.value_found]
    rfl

/-
  A transaction has its outcome, whatever entry carries it
  out, and the entry stands for the key again.
-/
theorem carryOut
    (h : e.Stands k b tab)
    (hOpen : b.IsOpen)
    (t : Transaction δ) :
    let r := t.carryOut e b
    r.2.IsOpen ∧
      r.1.Stands k r.2 tab.close ∧
      r.2.found k = t.outcome (b.found k) := by
  unfold Transaction.carryOut Transaction.outcome
  cases t.ending with
  | rollback => exact ⟨hOpen, h.rollback t, rfl⟩
  | commit version => exact h.commit hOpen t version

/- Transactions have their outcomes one after another. -/
theorem found_run
    (h : e.Stands k b tab)
    (hOpen : b.IsOpen)
    (ts : List (Transaction δ)) :
    let r := ts.foldl (fun r t => t.carryOut r.1 r.2) (e, b)
    r.2.found k =
      ts.foldl (fun f t => t.outcome f) (b.found k) := by
  induction ts generalizing e b tab with
  | nil => rfl
  | cons t ts ih =>
      rcases h.carryOut hOpen t with
        ⟨hStill, hAgain, hFound⟩
      have hRest := ih hAgain hStill
      rw [hFound] at hRest
      exact hRest

end Entry.Stands

end OverlayCache

------------------------------------------------------------
-- Reused And New Entries
------------------------------------------------------------

namespace OverlayCache

namespace Opener

variable {K α δ ω : Type} [Ord K] [Std.TransOrd K]
variable [Inhabited α] [Delta δ ω]

/- An opened entry stands for its key, and changes nothing. -/
theorem stands_openOn
    (o : Opener)
    (b : Stock K α)
    (k : K) :
    let r := o.openOn (δ := δ) b k
    (∃ tab : Tab K δ, r.1.Stands k r.2 tab) ∧
      r.2.container = b.container ∧
      r.2.found k = b.found k := by
  intro r
  cases hStored : b.container.stored? k with
  | some s =>
      let tab : Tab K δ := { key := k, line := s.value.id }
      let p : Plain K (Handle α) :=
        { Plain.existing k (some s.value) with
          version := s.version }
      have hResult : r = (o.wrap s.value p, b) := by
        simp only [r, openOn, beginWrite, Container.get?,
          Container.version?, hStored, Option.map_some,
          Option.bind_some, p]
      have hRests : tab.Rests p :=
        ⟨rfl, rfl, rfl, rfl, rfl, rfl⟩
      rw [hResult]
      refine ⟨⟨tab, ?_, rfl, rfl, Or.inl ?_⟩, rfl, rfl⟩
      · exact .layered (hRests.keptBy_fresh rfl rfl o.config)
      · exact hStored
  | none =>
      let tab : Tab K δ := { key := k, line := b.store.next }
      let p : Plain K (Handle α) :=
        .created k ⟨b.store.next⟩
      have hResult :
          r =
            (o.wrap ⟨b.store.next⟩ p,
              { b with store := (b.store.alloc default).2 }) := by
        simp only [r, openOn, beginWrite, Container.get?,
          hStored, Option.map_none, p]
        rfl
      have hRests : tab.Rests p :=
        ⟨rfl, rfl, rfl, rfl, rfl, rfl⟩
      rw [hResult]
      refine ⟨⟨tab, ?_, rfl, rfl, Or.inr ?_⟩, rfl, ?_⟩
      · exact .layered (hRests.keptBy_fresh rfl rfl o.config)
      · exact ⟨hStored, rfl, b.store.read_alloc default⟩
      · simp only [Stock.found, hStored, Option.map_none]

variable {b : Stock K α}

theorem isOpen_openOn
    (hOpen : b.IsOpen)
    (o : Opener)
    (k : K) :
    (o.openOn (δ := δ) b k).2.IsOpen := by
  rcases o.stands_openOn b k (δ := δ) with ⟨_, hSame, _⟩
  constructor
  · rw [hSame, hOpen.unlimited]
  · rw [hSame, hOpen.unclosed]

variable [Std.LawfulEqOrd K] [DecidableEq K] [Aggregate α δ]

/- One entry takes the key from outcome to outcome. -/
theorem found_reuse
    (hOpen : b.IsOpen)
    (o : Opener)
    (k : K)
    (ts : List (Transaction δ)) :
    (o.reuse b k ts).found k =
      ts.foldl (fun f t => t.outcome f) (b.found k) := by
  rcases o.stands_openOn b k (δ := δ) with
    ⟨⟨tab, hStands⟩, _, hSame⟩
  rw [← hSame]
  exact hStands.found_run (o.isOpen_openOn hOpen k) ts

/- So do entries that are opened for one transaction each. -/
theorem found_anew
    (hOpen : b.IsOpen)
    (o : Opener)
    (k : K)
    (ts : List (Transaction δ)) :
    (o.anew b k ts).found k =
      ts.foldl (fun f t => t.outcome f) (b.found k) := by
  induction ts generalizing b with
  | nil => rfl
  | cons t ts ih =>
      rcases o.stands_openOn b k (δ := δ) with
        ⟨⟨tab, hStands⟩, _, hSame⟩
      rcases hStands.carryOut (o.isOpen_openOn hOpen k) t with
        ⟨hStill, _, hFound⟩
      have hRest := ih hStill
      rw [hFound, hSame] at hRest
      exact hRest

/-
  Transactions on one key of a container that takes every key,
  with no other writer of the key.  Whether one entry carries
  all of them out or the key is opened anew for each, what is
  found under the key afterwards is the same: whether there is
  anything at all, the aggregate with all that it records, and
  its version.  A committed transaction is absorbed by what
  was found before it, and a rolled back one changes nothing.
-/
theorem reuse_leaves_what_anew_leaves
    (hOpen : b.IsOpen)
    (o : Opener)
    (k : K)
    (ts : List (Transaction δ)) :
    (o.reuse b k ts).found k = (o.anew b k ts).found k ∧
      (o.anew b k ts).found k =
        ts.foldl (fun f t => t.outcome f) (b.found k) := by
  have hReuse := found_reuse hOpen o k ts
  have hAnew := found_anew hOpen o k ts
  exact ⟨hReuse.trans hAnew.symm, hAnew⟩

/-
  The key is absent at first.  The first transaction on it is
  rolled back, so that the reused entry goes on with an
  aggregate that no other entry has seen.
-/
theorem reuse_of_absent_key :
    let o : Opener := { config := { strict := true } }
    let b : Stock Nat (TrackedMap Nat Nat) :=
      { container := .empty none, store := .empty }
    let ts : List (Transaction (MapDelta Nat Nat)) :=
      [{ deltas := [⟨[.put 1 10]⟩]
         ending := .rollback
         written := by simp },
        { deltas := [⟨[.put 2 20]⟩, ⟨[.put 3 30]⟩]
          ending := .commit (some ⟨7⟩)
          written := by simp },
        { deltas := [⟨[.remove 2]⟩]
          ending := .commit none
          written := by simp }]
    b.IsOpen ∧
      (o.reuse b 5 ts).found 5 = (o.anew b 5 ts).found 5 ∧
      ((o.reuse b 5 ts).found 5).map
          (fun f => (f.1.toList, f.1.changes, f.2)) =
        some ([(3, 30)], [], some ⟨7⟩) := by
  intro o b ts
  have hOpen : b.IsOpen := ⟨rfl, rfl⟩
  rcases reuse_leaves_what_anew_leaves hOpen o 5 ts with
    ⟨hSame, hOutcome⟩
  refine ⟨hOpen, hSame, ?_⟩
  rw [hSame, hOutcome]
  decide

end Opener

end OverlayCache
