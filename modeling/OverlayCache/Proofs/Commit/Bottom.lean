import OverlayCache.Proofs.Commit.Publication

/-
  Calls, as the bottom of a stack sees them.

  Few calls on a stack reach the plain entry at its bottom.
  Those that do set its value or version, move its flags, or
  prepare it or roll it back with the rest of the stack.

  Key definitions include:
    * `Plain.Turned`

  The main statements are:
    * `Entry.bottom_rollback`
    * `Entry.bottom_turned`
-/

------------------------------------------------------------
-- Bottoms Under Calls
------------------------------------------------------------

namespace OverlayCache

variable {K V δ ω : Type}

/-
  What a call on a stack can make of the plain entry at its
  bottom.  Only a preparation and a rollback concern the
  changed flag, and only one call sets the version.
-/
inductive Plain.Turned (p : Plain K V) :
    Entry.Call V δ → Plain K V → Prop
| kept
    {c : Entry.Call V δ}
    (value : Option V)
    {flags : Flags}
    (hChanged : flags.changed = p.flags.changed) :
    Turned p c { p with value := value, flags := flags }
| versioned (version : Option Version) :
    Turned p (.setVersion version)
      { p with version := version }
| prepared :
    Turned p .prepare p.capture
| restored :
    Turned p .rollback (p.rollback (δ := δ)).1

/- A plain entry may be left as it is. -/
theorem Plain.Turned.refl
    (p : Plain K V)
    (c : Entry.Call V δ) :
    p.Turned c p :=
  .kept p.value rfl

namespace Entry

theorem bottom_mapBottom
    (f : Entry K V δ ω → Entry K V δ ω)
    (e : Entry K V δ ω) :
    (e.mapBottom f).bottom = (f e.bottom).bottom := by
  induction e with
  | plain p => rfl
  | alone l => rfl
  | stacked l below ih => exact ih

variable [Delta δ ω]

theorem bottom_rollback (e : Entry K V δ ω) :
    e.rollback.1.bottom = e.bottom.rollback.1 := by
  induction e with
  | plain p => rfl
  | alone l => rfl
  | stacked l below ih => exact ih

/- A plain entry stays plain, whatever is called on it. -/
theorem call_plain
    (p : Plain K V)
    (c : Call V δ) :
    ∃ q : Plain K V,
      ((Entry.plain p : Entry K V δ ω).call c).entry =
        .plain q := by
  cases c with
  | undelete on =>
      simp only [call, undelete]
      split
      · exact ⟨_, rfl⟩
      · exact ⟨p, rfl⟩
  | _ => exact ⟨_, rfl⟩

/- The topmost layer may be replaced. -/
omit [Delta δ ω] in
theorem bottom_withTop
    {e : Entry K V δ ω}
    {p : Plain K V}
    (hBottom : e.bottom = .plain p)
    (l : Layer K V δ ω) :
    (e.withTop l).bottom = .plain p := by
  cases e with
  | plain p' => exact hBottom
  | alone l' => cases hBottom
  | stacked l' below => exact hBottom

/- The bottom stays a plain entry under every call. -/
theorem bottom_turned
    {e : Entry K V δ ω}
    {p : Plain K V}
    (hBottom : e.bottom = .plain p)
    (c : Call V δ) :
    ∃ q : Plain K V,
      (e.call c).entry.bottom = .plain q ∧ p.Turned c q := by
  cases c with
  | append d =>
      refine ⟨p, ?_, .refl p _⟩
      simp only [call, append]
      cases e.top? with
      | none => exact hBottom
      | some l =>
          simp only
          split
          · exact hBottom
          · exact bottom_withTop hBottom _
  | setValue value =>
      cases e with
      | plain p' =>
          cases hBottom
          exact ⟨_, rfl, .kept value rfl⟩
      | alone l => cases hBottom
      | stacked l below => exact ⟨p, hBottom, .refl p _⟩
  | mark m on =>
      cases e with
      | plain p' =>
          cases hBottom
          refine ⟨_, rfl, .kept p.value ?_⟩
          cases m <;> rfl
      | alone l => cases hBottom
      | stacked l below => exact ⟨p, hBottom, .refl p _⟩
  | setLock on =>
      cases e with
      | plain p' =>
          cases hBottom
          exact ⟨_, rfl, .kept p.value rfl⟩
      | alone l => cases hBottom
      | stacked l below => exact ⟨p, hBottom, .refl p _⟩
  | setVersion version =>
      cases e with
      | plain p' =>
          cases hBottom
          exact ⟨_, rfl, .versioned version⟩
      | alone l => cases hBottom
      | stacked l below => exact ⟨p, hBottom, .refl p _⟩
  | configure config =>
      refine ⟨p, ?_, .refl p _⟩
      simp only [call, configure]
      cases e.top? with
      | none => exact hBottom
      | some l => exact bottom_withTop hBottom _
  | prepare =>
      refine ⟨p.capture, ?_, .prepared⟩
      change e.prepare.1.bottom = _
      rw [bottom_prepare, hBottom]
      rfl
  | rollback =>
      refine ⟨(p.rollback (δ := δ)).1, ?_, .restored⟩
      change e.rollback.1.bottom = _
      rw [bottom_rollback, hBottom]
      rfl
  | undelete on =>
      simp only [call, undelete]
      split
      · let flags := (p.flags.lower .removed).raise .valid
        refine
          ⟨{ p with flags := flags }, ?_, .kept p.value rfl⟩
        rw [bottom_mapBottom, hBottom]
        rfl
      · exact ⟨p, hBottom, .refl p _⟩

end Entry

end OverlayCache
