import Mathlib.Data.List.Forall2
import OverlayCache.Proofs.Commit.Alike
import OverlayCache.Proofs.History

/-
  What can happen to the layers of an entry.

  An entry is called and committed, and now and then a fresh
  layer is put over it.  Whatever is done to the entry, and
  whatever became of the store meanwhile, a layer in it goes
  one of four ways: its transaction goes on as it was, or it
  starts, or it takes a delta in, or it ends.

  Key definitions include:
    * `Layer.Stepped`
    * `Entry.layers`
    * `Entry.Levelwise`
    * `Entry.Move`
    * `Entry.moves`

  The main statements are:
    * `Entry.levelwise_call`
    * `Entry.levelwise_commit`
    * `Entry.layers_move`
-/

------------------------------------------------------------
-- Steps Of A Layer
------------------------------------------------------------

namespace OverlayCache

variable {K V δ ω : Type}

/-
  What a single call or commit can make of a layer, given
  whether the key is being created.
-/
inductive Layer.Stepped
    [Delta δ ω]
    (created : Bool)
    (l : Layer K V δ ω) : Layer K V δ ω → Prop
| kept
    (value : Option V)
    (config : Config)
    {flags : Flags}
    (hChanged : flags.changed = l.flags.changed) :
    Stepped created l
      { l with
        value := value
        flags := flags
        config := config }
| started :
    Stepped created l (l.start created)
| appended (d : δ) :
    Stepped created l (l.append created d)
| ended (value : Option V) :
    Stepped created l (reset { l with value := value })

namespace Layer

variable [Delta δ ω]

theorem Stepped.refl
    (created : Bool)
    (l : Layer K V δ ω) :
    l.Stepped created l :=
  .kept l.value l.config rfl

/- The transaction of a layer ends with some live value. -/
def EndsAs (l m : Layer K V δ ω) : Prop :=
  ∃ value : Option V, m = reset { l with value := value }

/- What was started is forgotten at the end. -/
theorem EndsAs.of_start
    {l m : Layer K V δ ω}
    {created : Bool}
    (h : (l.start created).EndsAs m) :
    l.EndsAs m := by
  rcases h with ⟨value, rfl⟩
  refine ⟨value, ?_⟩
  unfold start
  split <;> rfl

/- A rollback ends what was written to, and nothing else. -/
theorem endsAs_discard
    (l : Layer K V δ ω)
    (value : Option V) :
    (l.discard value).1 = l ∨ l.EndsAs (l.discard value).1 := by
  unfold discard
  split
  · exact Or.inr ⟨value, rfl⟩
  · exact Or.inl rfl

theorem endsAs_replay
    {σ : Type} [Holding V σ δ]
    (l : Layer K V δ ω)
    (s : σ) :
    l.EndsAs (l.replay s).layer := by
  unfold replay
  split
  · exact ⟨l.value, rfl⟩
  · exact ⟨_, rfl⟩

end Layer

end OverlayCache

------------------------------------------------------------
-- Levels
------------------------------------------------------------

namespace OverlayCache

namespace Entry

variable {K V δ ω : Type}

/- The layers of an entry, from the innermost one up. -/
def layers : Entry K V δ ω → List (Layer K V δ ω)
| .plain _ => []
| .alone l => [l]
| .stacked l below => below.layers ++ [l]

/- One layer stands alone or lies over a plain entry. -/
theorem layers_eq_singleton
    {e : Entry K V δ ω}
    {l : Layer K V δ ω} :
    e.layers = [l] ↔
      e = .alone l ∨
        ∃ p : Plain K V, e = .stacked l (.plain p) := by
  constructor
  · intro hOne
    cases e with
    | plain p => cases hOne
    | alone m =>
        cases hOne
        exact Or.inl rfl
    | stacked m below =>
        have hLength := congrArg List.length hOne
        cases below with
        | plain p =>
            cases hOne
            exact Or.inr ⟨p, rfl⟩
        | alone m' => simp [layers] at hLength
        | stacked m' lower => simp [layers] at hLength
  · rintro (rfl | ⟨p, rfl⟩)
    · rfl
    · rfl

/- Two entries are built alike, with related layers. -/
inductive Levelwise
    (R : Layer K V δ ω → Layer K V δ ω → Prop) :
    Entry K V δ ω → Entry K V δ ω → Prop
| plain (p q : Plain K V) :
    Levelwise R (.plain p) (.plain q)
| alone
    {l m : Layer K V δ ω}
    (h : R l m) :
    Levelwise R (.alone l) (.alone m)
| stacked
    {l m : Layer K V δ ω}
    {e f : Entry K V δ ω}
    (h : R l m)
    (hBelow : Levelwise R e f) :
    Levelwise R (.stacked l e) (.stacked m f)

namespace Levelwise

variable {R S T : Layer K V δ ω → Layer K V δ ω → Prop}
variable {e f g : Entry K V δ ω}

theorem refl
    (hRefl : ∀ l : Layer K V δ ω, R l l)
    (e : Entry K V δ ω) : e.Levelwise R e := by
  induction e with
  | plain p => exact .plain p p
  | alone l => exact .alone (hRefl l)
  | stacked l below ih => exact .stacked (hRefl l) ih

theorem mono
    (h : e.Levelwise R f)
    (hMono : ∀ l m : Layer K V δ ω, R l m → S l m) :
    e.Levelwise S f := by
  induction h with
  | plain p q => exact .plain p q
  | alone h => exact .alone (hMono _ _ h)
  | stacked h hBelow ih => exact .stacked (hMono _ _ h) ih

theorem trans
    (h : e.Levelwise R f)
    (h' : f.Levelwise S g)
    (hTrans :
      ∀ l m n : Layer K V δ ω, R l m → S m n → T l n) :
    e.Levelwise T g := by
  induction h generalizing g with
  | plain p q =>
      cases h' with
      | plain q r => exact .plain p r
  | alone h =>
      cases h' with
      | alone h' => exact .alone (hTrans _ _ _ h h')
  | stacked h hBelow ih =>
      cases h' with
      | stacked h' hBelow' =>
          exact .stacked (hTrans _ _ _ h h') (ih hBelow')

theorem forall₂_layers
    (h : e.Levelwise R f) :
    List.Forall₂ R e.layers f.layers := by
  induction h with
  | plain p q => exact .nil
  | alone h => exact .cons h .nil
  | stacked h hBelow ih =>
      exact List.rel_append ih (.cons h .nil)

end Levelwise

end Entry

end OverlayCache

------------------------------------------------------------
-- Calls
------------------------------------------------------------

namespace OverlayCache

namespace Entry

variable {K V δ ω : Type}

/- Every level is started, as the bottom of the stack says. -/
theorem levelwise_prepare (e : Entry K V δ ω) :
    e.Levelwise
      (fun l m => m = l.start (e.is .created))
      e.prepare.1 := by
  induction e with
  | plain p => exact .plain p p.capture
  | alone l => exact .alone rfl
  | stacked l below ih =>
      have hCreated :
          below.prepare.1.is .created =
            (stacked l below).is .created :=
        below.alike_prepare.is_eq (by decide)
      refine .stacked ?_ ih
      exact congrArg l.start hCreated

variable [Delta δ ω]

/- A layer is ended, or there was nothing to end. -/
theorem levelwise_rollback (e : Entry K V δ ω) :
    e.Levelwise (fun l m => m = l ∨ l.EndsAs m)
      e.rollback.1 := by
  induction e with
  | plain p => exact .plain p _
  | alone l => exact .alone (l.endsAs_discard _)
  | stacked l below ih =>
      exact .stacked (l.endsAs_discard _) ih

/- A step of the topmost layer leaves the others alone. -/
theorem levelwise_withTop
    {e : Entry K V δ ω}
    {l m : Layer K V δ ω}
    {created : Bool}
    (hTop : e.top? = some l)
    (hStep : l.Stepped created m) :
    e.Levelwise (Layer.Stepped created) (e.withTop m) := by
  cases e with
  | plain p => cases hTop
  | alone l' =>
      cases hTop
      exact .alone hStep
  | stacked l' below =>
      cases hTop
      exact .stacked hStep (.refl (.refl created) below)

/- Moving other flags than the changed one is no end. -/
theorem levelwise_withOwnFlags
    {e : Entry K V δ ω}
    {flags : Flags}
    (hChanged : flags.changed = e.isChanged)
    (created : Bool) :
    e.Levelwise (Layer.Stepped created)
      (e.withOwnFlags flags) := by
  cases e with
  | plain p => exact .plain p _
  | alone l => exact .alone (.kept l.value l.config hChanged)
  | stacked l below =>
      exact .stacked (.kept l.value l.config hChanged)
        (.refl (.refl created) below)

theorem levelwise_mapBottom
    {e : Entry K V δ ω}
    {flags : Flags}
    (hChanged : flags.changed = e.bottom.isChanged)
    (created : Bool) :
    e.Levelwise (Layer.Stepped created)
      (e.mapBottom (fun b => b.withOwnFlags flags)) := by
  induction e with
  | plain p => exact levelwise_withOwnFlags hChanged created
  | alone l => exact levelwise_withOwnFlags hChanged created
  | stacked l below ih =>
      exact .stacked (.refl created l) (ih hChanged)

/- A call takes every layer one step. -/
theorem levelwise_call
    (e : Entry K V δ ω)
    (c : Call V δ) :
    e.Levelwise (Layer.Stepped (e.is .created))
      (e.call c).entry := by
  have hSame :
      ∀ f : Entry K V δ ω,
        f.Levelwise (Layer.Stepped (e.is .created)) f :=
    Levelwise.refl (Layer.Stepped.refl _)
  cases c with
  | append d =>
      simp only [call, append]
      cases hTop : e.top? with
      | none => exact hSame e
      | some l =>
          simp only
          split
          · exact hSame e
          · exact levelwise_withTop hTop (.appended d)
  | setValue value =>
      cases e with
      | plain p => exact .plain p _
      | alone l => exact .alone (.kept value l.config rfl)
      | stacked l below =>
          exact .stacked (.kept value l.config rfl)
            (hSame below)
  | mark m on =>
      apply levelwise_withOwnFlags
      cases m <;> rfl
  | setLock on =>
      cases e with
      | plain p => exact .plain p _
      | alone l => exact hSame _
      | stacked l below => exact hSame _
  | setVersion version =>
      cases e with
      | plain p => exact .plain p _
      | alone l => exact hSame _
      | stacked l below => exact hSame _
  | configure config =>
      simp only [call, configure]
      cases hTop : e.top? with
      | none => exact hSame e
      | some l =>
          exact levelwise_withTop hTop
            (.kept l.value config rfl)
  | prepare =>
      apply e.levelwise_prepare.mono
      intro l m hStarted
      subst hStarted
      exact .started
  | rollback =>
      apply e.levelwise_rollback.mono
      rintro l m (rfl | ⟨value, rfl⟩)
      · exact .refl _ _
      · exact .ended value
  | undelete on =>
      simp only [call, undelete]
      split
      · apply levelwise_mapBottom
        rfl
      · exact hSame e

end Entry

end OverlayCache

------------------------------------------------------------
-- Commits
------------------------------------------------------------

namespace OverlayCache

namespace Entry

variable {γ K V δ ω σ : Type}

/- The first pass of a commit starts some of the levels. -/
theorem levelwise_ready (e : Entry K V δ ω) :
    e.Levelwise
      (fun l m => m = l ∨ m = l.start (e.is .created))
      e.ready.1 := by
  induction e with
  | plain p => exact .plain p p
  | alone l => exact .alone (Or.inl rfl)
  | stacked l below ih =>
      simp only [ready]
      split
      · apply Levelwise.stacked (Or.inl rfl)
        exact below.levelwise_prepare.mono fun _ _ => Or.inr
      · exact .stacked (Or.inl rfl) ih

variable [Repository γ K V]
variable [Delta δ ω] [Holding V σ δ]

/- The second pass ends every level, or none if refused. -/
theorem levelwise_settle
    (e : Entry K V δ ω)
    (version : Option Version)
    (c : γ)
    (s : σ) :
    let o := e.settle version c s
    (o.result = .ok () → e.Levelwise Layer.EndsAs o.entry) ∧
      ∀ refusal : Refusal,
        o.result = .error refusal →
          e.Levelwise Eq o.entry := by
  induction e with
  | plain p =>
      exact ⟨fun _ => .plain p _, fun _ _ => .plain p _⟩
  | alone l =>
      refine ⟨fun _ => .alone (l.endsAs_replay s), ?_⟩
      intro refusal hRefused
      cases hRefused
  | stacked l below ih =>
      simp only [settle]
      cases hBelow : (below.settle version c s).result with
      | error refusal =>
          constructor
          · intro hOk
            cases hOk
          · intro refusal' _
            exact .stacked rfl (ih.2 refusal hBelow)
      | ok u =>
          constructor
          · intro _
            exact .stacked (l.endsAs_replay _) (ih.1 hBelow)
          · intro refusal hRefused
            cases hRefused

/- A commit takes every layer one step. -/
theorem levelwise_commit
    (e : Entry K V δ ω)
    (c : γ)
    (s : σ)
    (version : Option Version) :
    e.Levelwise (Layer.Stepped (e.is .created))
      (e.commit c s version).entry := by
  have hSettled := e.ready.1.levelwise_settle version c s
  cases hResult : (e.ready.1.settle version c s).result with
  | ok u =>
      -- What the first pass started, the second one forgets.
      apply e.levelwise_ready.trans (hSettled.1 hResult)
      rintro l m n (rfl | rfl) hEnds
      · rcases hEnds with ⟨value, rfl⟩
        exact .ended value
      · rcases hEnds.of_start with ⟨value, rfl⟩
        exact .ended value
  | error refusal =>
      -- The second pass did nothing, and the marks remain.
      apply e.levelwise_ready.trans (hSettled.2 _ hResult)
      rintro l m n (rfl | rfl) rfl
      · exact .refl _ _
      · exact .started

end Entry

end OverlayCache

------------------------------------------------------------
-- Moves
------------------------------------------------------------

namespace OverlayCache

namespace Entry

variable {γ K V δ ω σ : Type}

/-
  One thing that happens to an entry: an action, with the
  store as it is by then, or a fresh layer over it.
-/
inductive Move (γ K V δ σ : Type) where
| act (store : σ) (action : Action γ V δ)
| cover (key : K) (value : Option V) (config : Config)

variable [Repository γ K V]
variable [Delta δ ω] [Holding V σ δ]

/- Go on with a move. -/
def move
    (e : Entry K V δ ω) :
    Move γ K V δ σ → Entry K V δ ω
| .act store action =>
    (Point.act { entry := e, store := store } action).entry
| .cover key value config =>
    .stacked (.fresh key value config) e

/- Go on with moves in order. -/
def moves
    (e : Entry K V δ ω)
    (ms : List (Move γ K V δ σ)) : Entry K V δ ω :=
  ms.foldl move e

theorem moves_cons
    (e : Entry K V δ ω)
    (m : Move γ K V δ σ)
    (ms : List (Move γ K V δ σ)) :
    e.moves (m :: ms) = (e.move m).moves ms := rfl

/-
  After a move each layer is a step on from what it was, or it
  is the fresh one on top.
-/
theorem layers_move
    {e : Entry K V δ ω}
    {m : Move γ K V δ σ}
    {i : Nat}
    {l' : Layer K V δ ω}
    (hLayer : (e.move m).layers[i]? = some l') :
    (∃ l : Layer K V δ ω,
        e.layers[i]? = some l ∧
          l.Stepped (e.is .created) l') ∨
      ∃ (key : K) (value : Option V) (config : Config),
        l' = .fresh key value config := by
  cases m with
  | act store action =>
      left
      have hSteps :
          e.Levelwise (Layer.Stepped (e.is .created))
            (e.move (.act store action)) := by
        cases action with
        | call c => exact e.levelwise_call c
        | commit c version =>
            exact e.levelwise_commit c store version
      have hLayers := hSteps.forall₂_layers
      rcases List.getElem?_eq_some_iff.mp hLayer with
        ⟨hLt, rfl⟩
      have hBefore : i < e.layers.length := by
        rw [hLayers.length_eq]
        exact hLt
      exact
        ⟨e.layers[i], List.getElem?_eq_getElem hBefore,
          hLayers.get hBefore hLt⟩
  | cover key value config =>
      change (e.layers ++ [_])[i]? = some l' at hLayer
      rw [List.getElem?_append] at hLayer
      split at hLayer
      · exact Or.inl ⟨l', hLayer, .refl _ _⟩
      · right
        have hMem := List.mem_of_getElem? hLayer
        exact ⟨key, value, config, List.mem_singleton.mp hMem⟩

end Entry

end OverlayCache
