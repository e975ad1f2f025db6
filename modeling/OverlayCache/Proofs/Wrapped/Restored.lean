import OverlayCache.Proofs.Wrapped.Basic

/-
  What a rollback gives back to a layer over a plain entry.

  A layer that is rolled back takes its value from the plain
  entry.  A handle is found there as it was, and the aggregate
  that it names keeps all that was committed.  An aggregate
  that is held by itself is found there as it was when the
  layer was built, so what was committed since then is lost.

  Key definitions include:
    * `Entry.Point.Transaction`
    * `Entry.Point.Restores`

  The main statements are:
    * `Entry.Point.exists_transaction`
    * `Course.Follows.value_transaction`
    * `Entry.Point.restores_iff`
    * `Entry.rollback_restores_iff`
-/

------------------------------------------------------------
-- Transactions
------------------------------------------------------------

namespace OverlayCache

namespace Entry

namespace Point

variable {γ K V δ ω σ : Type}
variable [Repository γ K V]
variable [Delta δ ω] [Holding V σ δ]

/-
  The actions of one transaction that has not ended.  Nothing
  was written before the first of them, and after each of them
  something was.
-/
structure Transaction
    (b : Point K V δ ω σ)
    (actions : List (Action γ V δ)) : Prop where
  unwritten : b.entry.isChanged = false
  written :
    ∀ taken : List (Action γ V δ),
      taken <+: actions →
        taken ≠ [] → (b.run taken).entry.isChanged = true

/-
  An entry that was written to is in a transaction, which
  began when it was last not written to.
-/
theorem exists_transaction
    {b : Point K V δ ω σ}
    (hUnwritten : b.entry.isChanged = false)
    (actions : List (Action γ V δ)) :
    ∃ before during : List (Action γ V δ),
      actions = before ++ during ∧
        (b.run before).Transaction during := by
  induction hLength : actions.length using Nat.strongRecOn
    generalizing b actions with
  | ind n ih =>
      by_cases hBetween :
          ∃ taken rest : List (Action γ V δ),
            actions = taken ++ rest ∧
              taken ≠ [] ∧
              (b.run taken).entry.isChanged = false
      · rcases hBetween with
          ⟨taken, rest, hSplit, hSome, hUnwritten'⟩
        have hShorter : rest.length < n := by
          have hTaken := List.length_pos_iff.mpr hSome
          rw [hSplit, List.length_append] at hLength
          omega
        rcases ih rest.length hShorter hUnwritten' rest rfl with
          ⟨before, during, hRest, hDuring⟩
        refine ⟨taken ++ before, during, ?_, ?_⟩
        · rw [hSplit, hRest, List.append_assoc]
        · rw [run_append]
          exact hDuring
      · refine ⟨[], actions, rfl, hUnwritten, ?_⟩
        intro taken hPrefix hSome
        rcases hPrefix with ⟨rest, hSplit⟩
        cases hChanged : (b.run taken).entry.isChanged with
        | true => exact hChanged
        | false =>
            exact
              absurd ⟨taken, rest, hSplit.symm, hSome, hChanged⟩
                hBetween

/-
  The rollback that follows some actions makes the value look
  as it did at the first write of the transaction, and as it
  should after all that was committed.
-/
def Restores
    {β : Type}
    (start : Point K V δ ω σ)
    (actions : List (Action γ V δ))
    (look : V → σ → β)
    (committed : β) : Prop :=
  ∃ before during : List (Action γ V δ),
    actions = before ++ during ∧
      (start.run before).Transaction during ∧
      ∃ shown restored : V,
        let first := start.run before
        let last :=
          (start.run actions).act
            (.call .rollback : Action γ V δ)
        first.entry.value = some shown ∧
          last.entry.value = some restored ∧
          look restored last.store = look shown first.store ∧
          look restored last.store = committed

end Point

end Entry

namespace Course

variable {γ K V δ ω σ : Type}
variable [Repository γ K V]
variable [Delta δ ω] [Holding V σ δ]

variable {t : Course δ} {v : V}

/- Until a transaction ends the layer shows the same value. -/
theorem Follows.value_transaction
    {b : Entry.Point K V δ ω σ}
    (h : t.Follows v b.entry)
    {actions : List (Entry.Action γ V δ)}
    (hActions : ∀ a ∈ actions, a.KeepsValue)
    (hWritten :
      ∀ taken : List (Entry.Action γ V δ),
        taken <+: actions →
          taken ≠ [] → (b.run taken).entry.isChanged = true) :
    (b.run actions).entry.value = b.entry.value ∧
      (b.run actions).store = b.store := by
  induction actions generalizing t b with
  | nil => exact ⟨rfl, rfl⟩
  | cons a actions ih =>
      have hStep := h.act a
      have hMoved :=
        hStep.moved (hActions a List.mem_cons_self)
      have hFirst : (b.act a).entry.isChanged = true := by
        apply hWritten [a]
        · rw [List.cons_prefix_cons]
          exact ⟨rfl, List.nil_prefix⟩
        · simp
      have hRest :=
        ih hStep.follows
          (fun d hMem =>
            hActions d (List.mem_cons_of_mem a hMem))
          (fun taken hPrefix _ =>
            hWritten (a :: taken)
              (List.cons_prefix_cons.mpr ⟨rfl, hPrefix⟩)
              (by simp))
      -- An ended transaction would not be written to.
      cases hMoved with
      | kept _ _ hValue hStore _ =>
          exact ⟨hRest.1.trans hValue, hRest.2.trans hStore⟩
      | undone _ _ _ hEnded =>
          rw [hFirst] at hEnded
          cases hEnded
      | absorbed _ _ hEnded =>
          rw [hFirst] at hEnded
          cases hEnded

/- A layer that was written to goes back to the plain entry. -/
theorem Follows.value_rollback
    {q : Entry.Point K V δ ω σ}
    (h : t.Follows v q.entry)
    (hChanged : q.entry.isChanged = true) :
    let r := q.act (.call .rollback : Entry.Action γ V δ)
    r.entry.value = some v ∧ r.store = q.store := by
  rcases q with ⟨e, s, reply⟩
  cases h with
  | @layered l p h =>
      have hBack : (p.rollback (δ := δ)).1.value = some v :=
        h.keeps.rollback.value
      change l.flags.changed = true at hChanged
      simp [Entry.Point.act, Entry.call, Entry.rollback,
        Layer.discard, hChanged, Layer.reset, Entry.value,
        hBack]

end Course

end OverlayCache

------------------------------------------------------------
-- Rollbacks After Histories
------------------------------------------------------------

namespace OverlayCache

namespace Entry

variable {γ K V δ ω σ : Type}
variable [Repository γ K V]
variable [Delta δ ω] [Holding V σ δ]

/-
  A rollback gives back the value that the plain entry keeps.
  So it restores what was shown, with the effects of all that
  was committed, if that value has them.
-/
theorem Point.restores_iff
    {β : Type}
    {p : Plain K V}
    {v shown : V}
    (hKeeps : p.Keeps v)
    (config : Config)
    (s : σ)
    {actions : List (Action γ V δ)}
    (hActions : ∀ a ∈ actions, a.KeepsValue)
    (look : V → σ → β)
    (committed : β) :
    let start : Point K V δ ω σ := .wrapping p v config s
    let q := start.run actions
    q.entry.isChanged = true →
      q.entry.value = some shown →
        (start.Restores actions look committed ↔
          look v q.store = look shown q.store ∧
            look v q.store = committed) := by
  intro start q hChanged hShown
  have hFollows :
      ({} : Course δ).Follows v start.entry :=
    Course.follows_wrapping hKeeps v config s
  rcases (hFollows.run actions).value_rollback (γ := γ)
      hChanged with
    ⟨hBack, hStore⟩
  have hFirst :
      ∀ before during : List (Action γ V δ),
        actions = before ++ during →
          (start.run before).Transaction during →
            (start.run before).entry.value = some shown ∧
              (start.run before).store = q.store := by
    intro before during hSplit hDuring
    have hSame :=
      (hFollows.run before).value_transaction
        (fun a hMem =>
          hActions a (hSplit ▸ List.mem_append_right _ hMem))
        hDuring.written
    rw [← run_append, ← hSplit] at hSame
    exact ⟨hSame.1.symm.trans hShown, hSame.2.symm⟩
  constructor
  · rintro ⟨before, during, hSplit, hDuring, shown', restored,
      hShown', hRestored, hSame, hCommitted⟩
    rcases hFirst before during hSplit hDuring with
      ⟨hValue, hBefore⟩
    have hKept : restored = v :=
      Option.some.inj (hRestored.symm.trans hBack)
    have hWas : shown' = shown :=
      Option.some.inj (hShown'.symm.trans hValue)
    rw [hKept, hStore] at hSame hCommitted
    rw [hWas, hBefore] at hSame
    exact ⟨hSame, hCommitted⟩
  · rintro ⟨hSame, hCommitted⟩
    rcases exists_transaction (b := start) rfl actions with
      ⟨before, during, hSplit, hDuring⟩
    rcases hFirst before during hSplit hDuring with
      ⟨hValue, hBefore⟩
    refine
      ⟨before, during, hSplit, hDuring, shown, v, hValue, hBack,
        ?_, ?_⟩
    · rw [hStore, hBefore]
      exact hSame
    · rw [hStore]
      exact hCommitted

end Entry

end OverlayCache

------------------------------------------------------------
-- Shared And Unshared Values
------------------------------------------------------------

namespace OverlayCache

namespace Entry

/-
  Over a plain entry that keeps a handle, every rollback of a
  layer that was written to restores the handle and, behind
  it, what all the committed transactions made of the
  aggregate.  Over one that keeps a map, the rollback gives
  back that map.  So it restores the mappings exactly when
  they are the same again after the transactions committed
  since the last rollback, and after all of them.
-/
theorem rollback_restores_iff
    {γ ρ K α δ ω κ ν : Type}
    [Inhabited α] [Aggregate α δ] [Delta δ ω]
    [Repository γ K (Handle α)]
    [Ord κ] [Std.TransOrd κ]
    [Repository ρ K (TrackedMap κ ν)] :
    (∀ (p : Plain K (Handle α))
        (h : Handle α)
        (config : Config)
        (s : Heap α)
        (actions : List (Action γ (Handle α) δ)),
      p.Keeps h →
        (∀ a ∈ actions, a.KeepsValue) →
          let start : Point K (Handle α) δ ω (Heap α) :=
            .wrapping p h config s
          let t := ({} : Course δ).run start actions
          (start.run actions).entry.isChanged = true →
            start.Restores actions (fun g s => s.read g)
              (Aggregate.absorbAll t.committed (s.read h))) ∧
      ∀ (p : Plain K (TrackedMap κ ν))
        (m : TrackedMap κ ν)
        (config : Config)
        (actions :
          List
            (Action ρ (TrackedMap κ ν) (MapDelta κ ν))),
        p.Keeps m →
          (∀ a ∈ actions, a.KeepsValue) →
            let start :
                Point K (TrackedMap κ ν) (MapDelta κ ν)
                  (TrackedMap κ ν) Unit :=
              .wrapping p m config ()
            let t := ({} : Course _).run start actions
            let all := m.foldDeltas t.committed.flatten
            let recent := m.foldDeltas t.recent.flatten
            (start.run actions).entry.isChanged = true →
              (start.Restores actions (fun n _ => n.entries)
                  all.entries ↔
                m.entries = recent.entries ∧
                  m.entries = all.entries) := by
  refine ⟨?_, ?_⟩
  · intro p h config s actions hKeeps hActions start t hChanged
    rcases Course.handle_after_history (ω := ω) hKeeps config
        s hActions with
      ⟨hValue, hRead⟩
    rw [Point.restores_iff hKeeps config s hActions _ _
      hChanged hValue]
    exact ⟨rfl, hRead⟩
  · intro p m config actions hKeeps hActions start t all recent
      hChanged
    have hValue :=
      Course.value_after_history hKeeps config hActions
    rw [Point.restores_iff hKeeps config () hActions _ _
      hChanged hValue, TrackedMap.entries_absorbAll]

/-
  A handle is restored after a commit.  So is a map after two
  commits of which the second takes the first one back.
-/
theorem rollback_restores_neutral :
    let M := TrackedMap Nat Nat
    let start :
        Point Nat (Handle M) (MapDelta Nat Nat) M (Heap M) :=
      .wrapping (.existing 0 (some ⟨0⟩)) ⟨0⟩ {} Heap.empty
    let actions :
        List
          (Action (Container Nat (Handle M)) (Handle M)
            (MapDelta Nat Nat)) :=
      [.call (.append ⟨[.put 1 10]⟩),
        .commit (.empty none) none,
        .call .prepare,
        .call (.append ⟨[.clear]⟩)]
    let start' : Point Nat M (MapDelta Nat Nat) M Unit :=
      .wrapping (.created 0 .empty) .empty {} ()
    let actions' :
        List (Action (Container Nat M) M (MapDelta Nat Nat)) :=
      [.call (.append ⟨[.put 1 10]⟩),
        .commit (.empty none) none,
        .call (.append ⟨[.remove 1]⟩),
        .commit (.empty none) none,
        .call (.append ⟨[.put 2 20]⟩)]
    start.Restores actions (fun g s => s.read g)
        (Aggregate.absorb [⟨[.put 1 10]⟩] .empty) ∧
      start'.Restores actions' (fun n _ => n.entries) ∅ := by
  intro M start actions start' actions'
  have hAll :=
    rollback_restores_iff
      (γ := Container Nat (Handle M)) (K := Nat)
      (ρ := Container Nat M) (α := M)
      (δ := MapDelta Nat Nat) (ω := M) (κ := Nat) (ν := Nat)
  rcases hAll with ⟨hHandle, hMap⟩
  refine ⟨?_, ?_⟩
  · have hRestores :=
      hHandle (.existing 0 (some ⟨0⟩)) ⟨0⟩ {} Heap.empty actions
        (.existing 0 _)
        (by simp [actions, Action.KeepsValue, Call.KeepsValue])
        rfl
    exact hRestores
  · have hRestores :=
      hMap (.created 0 .empty) .empty {} actions'
        (.created 0 _)
        (by simp [actions', Action.KeepsValue, Call.KeepsValue])
        rfl
    have hEmpty :
        (TrackedMap.foldDeltas (.empty : M)
          [⟨[.put 1 10]⟩, ⟨[.remove 1]⟩]).entries = ∅ :=
      eq_of_beq (by decide)
    rw [← hEmpty]
    exact hRestores.mpr ⟨hEmpty.symm, hEmpty.symm⟩

/-
  A map that is committed and then written to again comes back
  from the rollback without what was committed.
-/
theorem restored_of_committed_map :
    let M := TrackedMap Nat Nat
    let start : Point Nat M (MapDelta Nat Nat) M Unit :=
      .wrapping (.existing 0 (some .empty)) .empty {} ()
    let before :
        List (Action (Container Nat M) M (MapDelta Nat Nat)) :=
      [.call (.append ⟨[.put 1 10]⟩),
        .commit (.empty none) none]
    let during :
        List (Action (Container Nat M) M (MapDelta Nat Nat)) :=
      [.call (.append ⟨[.put 2 20]⟩)]
    let first := start.run before
    let last :=
      (first.run during).act
        (.call .rollback :
          Action (Container Nat M) M (MapDelta Nat Nat))
    first.Transaction during ∧
      first.reply = .done ∧
      first.entry.value.map (fun m => m.toList) =
        some [(1, 10)] ∧
      last.entry.value.map (fun m => m.toList) = some [] ∧
      ¬ start.Restores (before ++ during)
          (fun m _ => m.toList) [(1, 10)] := by
  intro M start before during first last
  have hLast :
      last.entry.value.map (fun m => m.toList) = some [] := by
    decide
  refine ⟨⟨rfl, ?_⟩, rfl, by decide, hLast, ?_⟩
  · intro taken hPrefix hSome
    cases taken with
    | nil => exact absurd rfl hSome
    | cons a rest =>
        rw [List.cons_prefix_cons, List.prefix_nil] at hPrefix
        rw [hPrefix.1, hPrefix.2]
        rfl
  · rintro ⟨_, _, _, _, _, restored, _, hRestored, _, hAll⟩
    change last.entry.value = some restored at hRestored
    change restored.toList = [(1, 10)] at hAll
    rw [hRestored, Option.map_some, hAll] at hLast
    cases hLast

end Entry

end OverlayCache
