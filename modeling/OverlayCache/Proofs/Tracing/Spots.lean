import OverlayCache.Proofs.Tracing.Muted

/-
  Where a layer is among named entries.

  A layer is followed through a run by the name of its entry
  and by how many layers are above it.  It moves down its
  stack when another layer is put over it, and it is lost when
  the name of its entry is given away.

  Key definitions include:
    * `Spot`
    * `Spot.mute`
    * `Spot.lift`

  The main statements are:
    * `Spot.mute_lift`
    * `Spot.call_mute`
    * `Spot.commit_mute`
-/

------------------------------------------------------------
-- Where A Layer Is
------------------------------------------------------------

namespace OverlayCache

/-
  Where a layer is: the name of its entry, and the number of
  layers above it.
-/
structure Spot where
  name : String
  depth : Nat
deriving DecidableEq, Repr

namespace Spot

variable {K V δ ω : Type}

/- The entry of a name, with the layer muted if it is there. -/
def mute
    (spot : Option Spot)
    (name : String)
    (e : Entry K V δ ω) : Entry K V δ ω :=
  match spot with
  | some p => if name = p.name then e.mute p.depth else e
  | none => e

/- The call of a named entry, with its settings muted there. -/
def muteCall
    (spot : Option Spot)
    (name : String)
    (c : Entry.Call V δ) : Entry.Call V δ :=
  match spot with
  | some p => if name = p.name then c.mute p.depth else c
  | none => c

/- Where the layer is after a name was given away. -/
def without (name : String) : Option Spot → Option Spot
| some p => if p.name = name then none else some p
| none => none

/- Where the layer is after another was put over an entry. -/
def lift (name below : String) : Option Spot → Option Spot
| some p =>
    if p.name = below then
      some ⟨name, p.depth + 1⟩
    else
      without name (some p)
| none => none

@[simp] theorem mute_none
    (name : String)
    (e : Entry K V δ ω) :
    mute none name e = e := rfl

/- The entry stays as it is, or one of its layers is muted. -/
theorem mute_cases
    (spot : Option Spot)
    (name : String)
    (e : Entry K V δ ω) :
    mute spot name e = e ∨
      ∃ depth : Nat, mute spot name e = e.mute depth := by
  unfold mute
  split
  · next p =>
      split
      · exact Or.inr ⟨p.depth, rfl⟩
      · exact Or.inl rfl
  · exact Or.inl rfl

@[simp] theorem mute_plain
    (spot : Option Spot)
    (name : String)
    (p : Plain K V) :
    mute spot name (.plain p : Entry K V δ ω) = .plain p := by
  rcases mute_cases spot name (.plain p : Entry K V δ ω) with
    hEq | ⟨depth, hEq⟩
  · exact hEq
  · rw [hEq, Entry.mute]

@[simp] theorem value_mute
    (spot : Option Spot)
    (name : String)
    (e : Entry K V δ ω) :
    (mute spot name e).value = e.value := by
  rcases mute_cases spot name e with hEq | ⟨depth, hEq⟩
  · rw [hEq]
  · rw [hEq, e.value_mute depth]

/- The captured value is that of the layer. -/
theorem snapshot_mute
    (spot : Option Spot)
    (name : String)
    (e : Entry K V δ ω) :
    (mute spot name e).top?.bind Layer.snapshot =
      e.top?.bind Layer.snapshot := by
  rcases mute_cases spot name e with hEq | ⟨depth, hEq⟩
  · rw [hEq]
  · rw [hEq]
    cases e <;> cases depth <;> rfl

/- So is the value of the entry below. -/
theorem below_mute
    (spot : Option Spot)
    (name : String)
    (e : Entry K V δ ω) :
    (mute spot name e).below?.bind Entry.value =
      e.below?.bind Entry.value := by
  rcases mute_cases spot name e with hEq | ⟨depth, hEq⟩
  · rw [hEq]
  · rw [hEq]
    cases e with
    | plain p => cases depth <;> rfl
    | alone l => cases depth <;> rfl
    | stacked l below =>
        cases depth with
        | zero => rfl
        | succ depth => exact below.value_mute depth

/- What is no plain entry is none with a layer muted. -/
theorem mute_ne_plain
    (spot : Option Spot)
    (name : String)
    {e : Entry K V δ ω}
    (hLayer : ∀ p : Plain K V, e ≠ .plain p)
    (p : Plain K V) :
    mute spot name e ≠ .plain p := by
  rcases mute_cases spot name e with hEq | ⟨depth, hEq⟩
  · rw [hEq]
    exact hLayer p
  · rw [hEq]
    cases e with
    | plain p' => exact absurd rfl (hLayer p')
    | alone l => cases depth <;> simp [Entry.mute]
    | stacked l below => cases depth <;> simp [Entry.mute]

/- A name that was given away has no muted layer. -/
theorem mute_without
    (spot : Option Spot)
    (name : String)
    (e : Entry K V δ ω) :
    mute (without name spot) name e = e := by
  cases spot with
  | none => rfl
  | some p =>
      by_cases hName : p.name = name
      · simp [without, hName]
      · have hOther : ¬ name = p.name :=
          fun hEq => hName hEq.symm
        simp [without, hName, mute, hOther]

/- For all other names it makes no difference. -/
theorem mute_without_of_ne
    (spot : Option Spot)
    {name other : String}
    (hNe : other ≠ name)
    (e : Entry K V δ ω) :
    mute (without name spot) other e = mute spot other e := by
  cases spot with
  | none => rfl
  | some p =>
      by_cases hName : p.name = name
      · simp [without, hName, mute, hNe]
      · simp [without, hName]

/- The layer is muted below another one just as by itself. -/
theorem mute_lift
    (spot : Option Spot)
    (name below : String)
    (l : Layer K V δ ω)
    (e : Entry K V δ ω) :
    mute (lift name below spot) name (.stacked l e) =
      .stacked l (mute spot below e) := by
  cases spot with
  | none => rfl
  | some p =>
      by_cases hBelow : p.name = below
      · simp [lift, hBelow, mute, Entry.mute]
      · have hOther : ¬ below = p.name :=
          fun hEq => hBelow hEq.symm
        simp only [lift, hBelow, if_false, mute_without]
        simp [mute, hOther]

theorem mute_lift_of_ne
    (spot : Option Spot)
    {name below other : String}
    (hName : other ≠ name)
    (hBelow : other ≠ below)
    (e : Entry K V δ ω) :
    mute (lift name below spot) other e =
      mute spot other e := by
  cases spot with
  | none => rfl
  | some p =>
      by_cases hLifted : p.name = below
      · simp [lift, hLifted, mute, hName, hBelow]
      · simp only [lift, hLifted, if_false]
        exact mute_without_of_ne (some p) hName e

theorem call_mute
    [Delta δ ω]
    (spot : Option Spot)
    (name : String)
    (e : Entry K V δ ω)
    (c : Entry.Call V δ) :
    (mute spot name e).call (muteCall spot name c) =
      let t := e.call c
      { entry := mute spot name t.entry
        events :=
          if decide (spot = some ⟨name, 0⟩) && c.isAppend then
            Event.unappended t.events
          else
            t.events
        reply := t.reply } := by
  cases spot with
  | none => rfl
  | some p =>
      by_cases hName : name = p.name
      · subst hName
        have hTop :
            (some p = some ⟨p.name, 0⟩) ↔ p.depth = 0 := by
          cases p
          simp
        simp only [mute, muteCall, if_true, e.mute_call, hTop,
          Bool.and_eq_true, decide_eq_true_eq]
      · have hOther : ¬ p = ⟨name, 0⟩ :=
          fun hEq => hName (congrArg Spot.name hEq).symm
        simp [mute, muteCall, hName, hOther]

theorem commit_mute
    {γ σ : Type}
    [Repository γ K V] [Delta δ ω] [Holding V σ δ]
    (spot : Option Spot)
    (name : String)
    (e : Entry K V δ ω)
    (c : γ)
    (s : σ)
    (version : Option Version) :
    (mute spot name e).commit c s version =
      let o := e.commit c s version
      { o with entry := mute spot name o.entry } := by
  unfold mute
  split
  · split
    · exact e.mute_commit _ c s version
    · rfl
  · rfl

end Spot

end OverlayCache
