import OverlayCache.Proofs.Tracing.Accounts

/-
  Entries in which one layer does not trace its deltas.

  A layer is found by the number of layers above it, so that
  one on top has depth zero.  To mute a layer is to turn its
  tracing off.  Nothing that is done to an entry asks for the
  tracing of any layer, but for appends to the layer on top.
  So whatever is done to the entry with the muted layer, its
  outcome is the same up to that setting, and the appends to a
  layer that is muted on top go unreported.

  Key definitions include:
    * `Layer.muted`
    * `Entry.mute`
    * `Entry.Call.mute`
    * `Event.unappended`

  The main statements are:
    * `Entry.mute_call`
    * `Entry.mute_commit`
-/

------------------------------------------------------------
-- Muted Layers
------------------------------------------------------------

namespace OverlayCache

variable {γ K V δ ω σ : Type}

namespace Event

/- The events that report no delta that was taken in. -/
def unappended (events : List (Event K δ)) :
    List (Event K δ) :=
  events.filter (fun event => !event.isAppended)

end Event

namespace Layer

/- The layer with its tracing turned off. -/
def muted (l : Layer K V δ ω) : Layer K V δ ω :=
  { l with config := l.config.setTraced false }

theorem start_muted
    (l : Layer K V δ ω)
    (created : Bool) :
    l.muted.start created = (l.start created).muted := by
  unfold start muted
  split
  · rfl
  · rfl

variable [Delta δ ω]

theorem append_muted
    (l : Layer K V δ ω)
    (created : Bool)
    (d : δ) :
    l.muted.append created d =
      (l.append created d).muted := by
  simp only [append, start_muted]
  rfl

theorem discard_muted
    (l : Layer K V δ ω)
    (value : Option V) :
    l.muted.discard value =
      ((l.discard value).1.muted, (l.discard value).2) := by
  unfold discard muted
  split
  · rfl
  · rfl

theorem replay_muted
    [Holding V σ δ]
    (l : Layer K V δ ω)
    (s : σ) :
    l.muted.replay s =
      { l.replay s with layer := (l.replay s).layer.muted } := by
  cases l with
  | mk key value snapshot pending work flags config =>
      cases value with
      | none => rfl
      | some v => rfl

end Layer

------------------------------------------------------------
-- Muted Entries
------------------------------------------------------------

namespace Entry

/- The entry with the layer at a depth muted, if there is one. -/
def mute : Nat → Entry K V δ ω → Entry K V δ ω
| _, .plain p => .plain p
| 0, .alone l => .alone l.muted
| _ + 1, .alone l => .alone l
| 0, .stacked l below => .stacked l.muted below
| depth + 1, .stacked l below =>
    .stacked l (below.mute depth)

/- Whether a call appends a delta. -/
def Call.isAppend : Call V δ → Bool
| .append _ => true
| _ => false

/- The settings that a call gives are muted for the top. -/
def Call.mute : Nat → Call V δ → Call V δ
| 0, .configure config => .configure (config.setTraced false)
| _, c => c

@[simp] theorem is_mute
    (depth : Nat)
    (e : Entry K V δ ω)
    (flag : Flag) :
    (e.mute depth).is flag = e.is flag := by
  induction e generalizing depth with
  | plain p => cases depth <;> rfl
  | alone l => cases depth <;> rfl
  | stacked l below ih =>
      cases depth with
      | zero => rfl
      | succ depth => simp only [mute, is, ih]

@[simp] theorem ownFlags_mute
    (depth : Nat)
    (e : Entry K V δ ω) :
    (e.mute depth).ownFlags = e.ownFlags := by
  cases e <;> cases depth <;> rfl

@[simp] theorem isChanged_mute
    (depth : Nat)
    (e : Entry K V δ ω) :
    (e.mute depth).isChanged = e.isChanged := by
  unfold isChanged
  rw [ownFlags_mute]

@[simp] theorem value_mute
    (depth : Nat)
    (e : Entry K V δ ω) :
    (e.mute depth).value = e.value := by
  cases e <;> cases depth <;> rfl

/- The layer on top is muted at depth zero only. -/
theorem top?_mute
    (depth : Nat)
    (e : Entry K V δ ω) :
    (e.mute depth).top? =
      if depth = 0 then
        e.top?.map Layer.muted
      else
        e.top? := by
  cases e <;> cases depth <;> rfl

theorem withTop_mute
    (depth : Nat)
    (e : Entry K V δ ω)
    (l : Layer K V δ ω) :
    (e.mute depth).withTop
        (if depth = 0 then l.muted else l) =
      (e.withTop l).mute depth := by
  cases e <;> cases depth <;> rfl

theorem mapBottom_mute
    (depth : Nat)
    (e : Entry K V δ ω)
    (flags : Flags) :
    (e.mute depth).mapBottom
        (fun b => b.withOwnFlags flags) =
      (e.mapBottom
        (fun b => b.withOwnFlags flags)).mute depth := by
  induction e generalizing depth with
  | plain p => cases depth <;> rfl
  | alone l => cases depth <;> rfl
  | stacked l below ih =>
      cases depth with
      | zero => rfl
      | succ depth => simp only [mute, mapBottom, ih]

/- What the bottom says does not depend on tracing. -/
theorem bottom_mute
    (depth : Nat)
    (e : Entry K V δ ω) :
    (∀ flag : Flag,
      (e.mute depth).bottom.is flag = e.bottom.is flag) ∧
      (e.mute depth).bottom.ownFlags = e.bottom.ownFlags ∧
      (e.mute depth).bottom.key = e.bottom.key := by
  induction e generalizing depth with
  | plain p => cases depth <;> exact ⟨fun _ => rfl, rfl, rfl⟩
  | alone l => cases depth <;> exact ⟨fun _ => rfl, rfl, rfl⟩
  | stacked l below ih =>
      cases depth with
      | zero => exact ⟨fun _ => rfl, rfl, rfl⟩
      | succ depth => exact ih depth

end Entry

end OverlayCache

------------------------------------------------------------
-- Calls
------------------------------------------------------------

namespace OverlayCache

namespace Entry

variable {K V δ ω : Type}

theorem prepare_mute
    (depth : Nat)
    (e : Entry K V δ ω) :
    (e.mute depth).prepare =
      (e.prepare.1.mute depth, e.prepare.2) := by
  induction e generalizing depth with
  | plain p => cases depth <;> rfl
  | alone l =>
      cases depth with
      | zero =>
          simp only [mute, prepare, Layer.start_muted]
          rfl
      | succ depth => rfl
  | stacked l below ih =>
      cases depth with
      | zero =>
          simp only [mute, prepare, Layer.start_muted]
          rfl
      | succ depth => simp only [mute, prepare, ih, is_mute]

theorem ready_mute
    (depth : Nat)
    (e : Entry K V δ ω) :
    (e.mute depth).ready =
      (e.ready.1.mute depth, e.ready.2) := by
  induction e generalizing depth with
  | plain p => cases depth <;> rfl
  | alone l => cases depth <;> rfl
  | stacked l below ih =>
      cases depth with
      | zero => rfl
      | succ depth =>
          simp only [mute, ready, isChanged_mute, ih,
            prepare_mute]
          split
          · rfl
          · rfl

theorem undelete_mute
    (depth : Nat)
    (e : Entry K V δ ω)
    (on : Bool) :
    (e.mute depth).undelete on =
      let u := e.undelete on
      (u.1, u.2.1.mute depth, u.2.2) := by
  rcases e.bottom_mute depth with ⟨hIs, hFlags, hKey⟩
  simp only [undelete, hIs, hFlags, hKey, mapBottom_mute]
  split
  · rfl
  · rfl

theorem configure_mute
    (depth : Nat)
    (e : Entry K V δ ω)
    (config : Config) :
    (e.mute depth).configure
        (if depth = 0 then config.setTraced false else config) =
      let t := e.configure config
      { t with entry := t.entry.mute depth } := by
  cases e <;> cases depth <;> rfl

variable [Delta δ ω]

theorem rollback_mute
    (depth : Nat)
    (e : Entry K V δ ω) :
    (e.mute depth).rollback =
      (e.rollback.1.mute depth, e.rollback.2) := by
  induction e generalizing depth with
  | plain p => cases depth <;> rfl
  | alone l =>
      cases depth with
      | zero =>
          simp only [mute, rollback, Layer.discard_muted]
          rfl
      | succ depth => rfl
  | stacked l below ih =>
      cases depth with
      | zero =>
          simp only [mute, rollback, Layer.discard_muted]
      | succ depth =>
          simp only [mute, rollback, ih, value_mute]

/- An append to a layer that is muted on top is unreported. -/
theorem append_mute
    (depth : Nat)
    (e : Entry K V δ ω)
    (d : δ) :
    (e.mute depth).append d =
      let t := e.append d
      { entry := t.entry.mute depth
        events :=
          if depth = 0 then
            Event.unappended t.events
          else
            t.events
        reply := t.reply } := by
  cases hTop : e.top? with
  | none =>
      cases e with
      | plain p =>
          simp only [append, top?_mute, hTop]
          cases depth <;> rfl
      | alone l => cases hTop
      | stacked l below => cases hTop
  | some l =>
      have hEntry := e.withTop_mute depth
        (l.append (e.is .created) d)
      by_cases hDepth : depth = 0
      · subst hDepth
        simp only [if_true] at hEntry
        have hStrict : l.muted.config.strict = l.config.strict :=
          rfl
        simp only [append, top?_mute, hTop, if_true,
          Option.map_some, is_mute, Layer.append_muted, hEntry,
          hStrict]
        split
        · rfl
        · cases hTraced : l.config.traced with
          | true => rfl
          | false => rfl
      · simp only [hDepth, if_false] at hEntry
        simp only [append, top?_mute, hTop, hDepth, if_false,
          is_mute, hEntry]
        split
        · rfl
        · rfl

/-
  A call of an entry with a muted layer.  If the layer is on
  top, the settings that the call gives are muted as well, and
  what it would report of an accepted delta is left out.
-/
theorem mute_call
    (depth : Nat)
    (e : Entry K V δ ω)
    (c : Call V δ) :
    (e.mute depth).call (c.mute depth) =
      let t := e.call c
      { entry := t.entry.mute depth
        events :=
          if depth = 0 ∧ c.isAppend = true then
            Event.unappended t.events
          else
            t.events
        reply := t.reply } := by
  cases c with
  | append d =>
      have hCall :
          (Call.append d : Call V δ).mute depth = .append d := by
        cases depth <;> rfl
      simp only [hCall, call, append_mute, Call.isAppend,
        and_true]
  | configure config =>
      have hCall :
          (Call.configure config : Call V δ).mute depth =
            .configure
              (if depth = 0 then
                config.setTraced false
              else
                config) := by
        cases depth <;> rfl
      simp only [hCall, call, configure_mute, Call.isAppend,
        Bool.false_eq_true, and_false, if_false]
  | setValue | mark | setLock | setVersion =>
      cases e <;> cases depth <;> rfl
  | prepare =>
      simp [Call.mute, call, prepare_mute, Call.isAppend]
  | rollback =>
      simp [Call.mute, call, rollback_mute, Call.isAppend]
  | undelete on =>
      simp [Call.mute, call, undelete_mute, Call.isAppend]

/- What is reported of an accepted delta. -/
theorem events_of_done
    {e : Entry K V δ ω}
    {d : δ}
    (hDone : (e.append d).reply = .done) :
    ∃ l : Layer K V δ ω,
      (e.append d).entry.top? = some l ∧
        (e.append d).events =
          if l.config.traced then
            [.deltaAppended l.key l.pending.length d]
          else
            [] := by
  cases hTop : e.top? with
  | none => simp [append, hTop] at hDone
  | some l =>
      refine ⟨l.append (e.is .created) d, ?_, ?_⟩
      · simp only [append, hTop] at hDone ⊢
        split at hDone
        · cases hDone
        · next hTaken =>
            rw [if_neg hTaken]
            cases e with
            | plain p => cases hTop
            | alone l => rfl
            | stacked l below => rfl
      · simp only [append, hTop] at hDone ⊢
        split at hDone
        · cases hDone
        · next hTaken =>
            rw [if_neg hTaken, l.key_append, l.config_append,
              l.length_pending_append]

/- Nothing is reported of a delta that is not accepted. -/
theorem unappended_of_not_done
    {e : Entry K V δ ω}
    {d : δ}
    (hDone : (e.append d).reply ≠ .done) :
    Event.unappended (e.append d).events =
      (e.append d).events := by
  simp only [append] at hDone ⊢
  split
  · rfl
  · next l hTop =>
      simp only [hTop] at hDone
      split at hDone
      · next hRefused =>
          rw [if_pos hRefused]
          rfl
      · exact absurd rfl hDone

end Entry

end OverlayCache

------------------------------------------------------------
-- Commits
------------------------------------------------------------

namespace OverlayCache

namespace Entry

variable {γ K V δ ω σ : Type}
variable [Repository γ K V] [Delta δ ω] [Holding V σ δ]

theorem settle_mute
    (depth : Nat)
    (e : Entry K V δ ω)
    (version : Option Version)
    (c : γ)
    (s : σ) :
    (e.mute depth).settle version c s =
      let o := e.settle version c s
      { o with entry := o.entry.mute depth } := by
  induction e generalizing depth with
  | plain p => cases depth <;> rfl
  | alone l =>
      cases depth with
      | zero =>
          simp only [mute, settle, Layer.replay_muted]
      | succ depth => rfl
  | stacked l below ih =>
      cases depth with
      | zero =>
          simp only [mute, settle]
          cases (below.settle version c s).result with
          | error refusal => rfl
          | ok u =>
              simp only [Layer.replay_muted]
              rfl
      | succ depth =>
          simp only [mute, settle, ih]
          cases (below.settle version c s).result with
          | error refusal => rfl
          | ok u => rfl

/- A commit comes to the same, whatever is muted. -/
theorem mute_commit
    (depth : Nat)
    (e : Entry K V δ ω)
    (c : γ)
    (s : σ)
    (version : Option Version) :
    (e.mute depth).commit c s version =
      let o := e.commit c s version
      { o with entry := o.entry.mute depth } := by
  simp only [commit, ready_mute, settle_mute]

end Entry

end OverlayCache
