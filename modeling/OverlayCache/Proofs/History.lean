import OverlayCache.Entry.Call
import OverlayCache.Entry.Commit
import OverlayCache.Proofs.Absorb

/-
  Histories of an entry.

  An entry is called and committed in any order, each time to
  a repository of the client's choice.  A tally follows such a
  history with nothing but a value and the deltas that were
  accepted since the last commit or rollback.

  Key definitions include:
    * `Entry.Action`
    * `Entry.Action.KeepsValue`
    * `Entry.Point`
    * `Entry.Point.run`
    * `Tally`
    * `Tally.run`
-/

------------------------------------------------------------
-- Actions
------------------------------------------------------------

namespace OverlayCache

namespace Entry

/- One thing that a client does to an entry. -/
inductive Action (γ V δ : Type) where
| call (c : Call V δ)
| commit (container : γ) (version : Option Version)

/- The actions that leave the live value to transactions. -/
def Action.KeepsValue {γ V δ : Type} : Action γ V δ → Prop
| .call c => c.KeepsValue
| .commit _ _ => True

/- Where a history has led, and what was last replied. -/
structure Point (K V δ ω σ : Type) where
  entry : Entry K V δ ω
  store : σ
  reply : Reply V := .done

variable {γ K V δ ω σ : Type}
variable [Repository γ K V]
variable [Delta δ ω] [Holding V σ δ]

namespace Point

/- Go on with an action. -/
def act
    (p : Point K V δ ω σ) :
    Action γ V δ → Point K V δ ω σ
| .call c =>
    let t := p.entry.call c
    { entry := t.entry
      store := p.store
      reply := t.reply }
| .commit c version =>
    let o := p.entry.commit c p.store version
    { entry := o.entry
      store := o.store
      reply :=
        match o.result with
        | .ok () => .done
        | .error refusal => .refused (.container refusal) }

/- Go on with actions in order. -/
def run
    (p : Point K V δ ω σ)
    (actions : List (Action γ V δ)) : Point K V δ ω σ :=
  actions.foldl act p

@[simp] theorem run_nil (p : Point K V δ ω σ) :
    p.run ([] : List (Action γ V δ)) = p := rfl

@[simp] theorem run_cons
    (p : Point K V δ ω σ)
    (a : Action γ V δ)
    (actions : List (Action γ V δ)) :
    p.run (a :: actions) = (p.act a).run actions := rfl

theorem run_append
    (p : Point K V δ ω σ)
    (before actions : List (Action γ V δ)) :
    p.run (before ++ actions) =
      (p.run before).run actions :=
  List.foldl_append

end Point

end Entry

end OverlayCache

------------------------------------------------------------
-- Tallies
------------------------------------------------------------

namespace OverlayCache

/- A value and the deltas that it has not absorbed yet. -/
structure Tally (V δ : Type) where
  value : V
  accepted : List δ := []

namespace Tally

variable {γ K V δ ω σ : Type} [Aggregate V δ]

/- The accepted deltas are committed. -/
def close (t : Tally V δ) : Tally V δ where
  value := Aggregate.absorb t.accepted t.value

/-
  Follow an action, given the reply to it.  A delta counts when
  it was not refused.
-/
def act
    (t : Tally V δ) :
    Entry.Action γ V δ → Entry.Reply V → Tally V δ
| .call (.append d), .done =>
    { t with accepted := t.accepted ++ [d] }
| .call .rollback, _ => { t with accepted := [] }
| .commit _ _, .done => t.close
| _, _ => t

variable [Repository γ K V]
variable [Delta δ ω] [Holding V σ δ]

/- Follow a history from a point on. -/
def run
    (t : Tally V δ)
    (p : Entry.Point K V δ ω σ) :
    List (Entry.Action γ V δ) → Tally V δ
| [] => t
| a :: actions =>
    (t.act a (p.act a).reply).run (p.act a) actions

end Tally

end OverlayCache
