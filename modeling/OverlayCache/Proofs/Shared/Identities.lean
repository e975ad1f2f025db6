import Mathlib.Data.List.Induction
import OverlayCache.Proofs.Shared.Calls

/-
  Handles and the maps they stand for.

  A handle is made for a new map, or for one that is made from
  the map of another handle, or it is a copy of a handle.  Two
  handles have one identity when they are equal, and whatever
  is done through any of them is done to one map.  So a handle
  is nothing but that map: it reads, and answers every call,
  as the map would if it had been called by itself.

  Key definitions include:
    * `SharedWorkspace.Step.OnHandles`
    * `SharedWorkspace.Makes`
    * `SharedWorkspace.answersIn`
    * `SharedWorkspace.callingOnly`

  The main statements are:
    * `SharedWorkspace.named_or_made`
    * `SharedWorkspace.answersIn_eq`
    * `SharedWorkspace.callsIn_callingOnly`
    * `SharedWorkspace.handles_stand_for_maps`
-/

------------------------------------------------------------
-- Handles In Use
------------------------------------------------------------

namespace OverlayCache

namespace SharedWorkspace

variable {K κ ν : Type} [Ord K] [Ord κ]

/- The steps that make handles, or call maps through them. -/
def Step.OnHandles : Step K κ ν → Prop
| .share _ _ => True
| .copy _ _ => True
| .detach _ _ => True
| .call _ _ => True
| _ => False

/- The reply of a map, if it was a map that was called. -/
def Reply.map? : Reply κ ν → Option (TrackedMap.Reply κ ν)
| .map reply => some reply
| _ => none

variable [Std.TransOrd K] [Std.TransOrd κ]

/-
  A step gives its name to the handle of a new map.  The map
  is the given one, or what another handle reads just then.
-/
inductive Makes (w : SharedWorkspace K κ ν) :
    Step K κ ν → MapHandle κ ν → TrackedMap κ ν → Prop
| share
    {name : String}
    {m : TrackedMap κ ν}
    {h : MapHandle κ ν}
    (hName :
      (w.step (.share name m)).workspace.handle? name =
        some h) :
    w.Makes (.share name m) h m
| detach
    {name source : String}
    {g h : MapHandle κ ν}
    (hSource : w.handle? source = some g)
    (hName :
      (w.step (.detach name source)).workspace.handle? name =
        some h) :
    w.Makes (.detach name source) h (w.read g)

/- What a step is answered through a handle. -/
def answersOn
    (w : SharedWorkspace K κ ν)
    (h : MapHandle κ ν) :
    Step K κ ν → List (TrackedMap.Reply κ ν)
| .call name c =>
    if w.handle? name = some h then
      (w.step (.call name c)).reply.map?.toList
    else
      []
| _ => []

/- What a run is answered through a handle. -/
def answersIn
    (w : SharedWorkspace K κ ν)
    (h : MapHandle κ ν) :
    List (Step K κ ν) → List (TrackedMap.Reply κ ν)
| [] => []
| s :: steps =>
    w.answersOn h s ++ (w.step s).workspace.answersIn h steps

/- Whether a step is a call, but not through the handle. -/
def callsApartFrom
    (w : SharedWorkspace K κ ν)
    (h : MapHandle κ ν) : Step K κ ν → Bool
| .call name _ => decide (w.handle? name ≠ some h)
| _ => false

/- The steps of a run but for the calls apart from a handle. -/
def callingOnly
    (w : SharedWorkspace K κ ν)
    (h : MapHandle κ ν) :
    List (Step K κ ν) → List (Step K κ ν)
| [] => []
| s :: steps =>
    let kept := (w.step s).workspace.callingOnly h steps
    if w.callsApartFrom h s then kept else s :: kept

end SharedWorkspace

end OverlayCache

------------------------------------------------------------
-- Made Handles
------------------------------------------------------------

namespace OverlayCache

namespace SharedWorkspace

variable {K κ ν : Type} [Ord K] [Ord κ]

theorem handle?_keepHandle
    (w : SharedWorkspace K κ ν)
    (name other : String)
    (h : MapHandle κ ν) :
    handle? (w.keepHandle name h) other =
      if other = name then some h else w.handle? other := by
  simp [keepHandle, handle?, Std.ExtTreeMap.getElem?_insert,
    @eq_comm _ name other]

variable [Std.TransOrd K] [Std.TransOrd κ]

theorem run_append
    (w : SharedWorkspace K κ ν)
    (steps rest : List (Step K κ ν)) :
    w.run (steps ++ rest) = (w.run steps).run rest :=
  List.foldl_append

theorem handles_call
    (w : SharedWorkspace K κ ν)
    (name : String)
    (c : TrackedMap.Call κ ν) :
    (w.step (.call name c)).workspace.handles = w.handles := by
  simp only [step, call]
  split
  · rfl
  · rfl

/- A copy has the identity of its source. -/
theorem handle?_copy
    {w : SharedWorkspace K κ ν}
    {source : String}
    {h : MapHandle κ ν}
    (hSource : w.handle? source = some h)
    (name : String) :
    (w.step (.copy name source)).workspace.handle? name =
      some h := by
  simp only [step, hSource]
  rw [handle?_keepHandle, if_pos rfl]

/- What a new handle is, and what it reads. -/
theorem Makes.spec
    {w : SharedWorkspace K κ ν}
    {s : Step K κ ν}
    {h : MapHandle κ ν}
    {m : TrackedMap κ ν}
    (hMade : w.Makes s h m) :
    h.id = w.base.store.next ∧
      (w.step s).workspace.base.store.next =
        w.base.store.next + 1 ∧
      (w.step s).workspace.read h = m := by
  cases hMade with
  | @share name m h hName =>
      simp only [step] at hName
      rw [handle?_keepHandle, if_pos rfl] at hName
      cases hName
      exact ⟨rfl, rfl, w.base.store.read_alloc m⟩
  | @detach name source g h hSource hName =>
      simp only [step, SharedWorkspace.detach, hSource]
        at hName ⊢
      rw [handle?_keepHandle, if_pos rfl] at hName
      cases hName
      exact ⟨rfl, rfl, w.base.store.read_alloc (w.read g)⟩

/- A handle with a name had one before, or is made just now. -/
theorem named_or_made
    {w : SharedWorkspace K κ ν}
    {s : Step K κ ν}
    (hOnly : s.OnHandles)
    {name : String}
    {h : MapHandle κ ν}
    (hName : (w.step s).workspace.handle? name = some h) :
    (∃ other : String, w.handle? other = some h) ∨
      ∃ m : TrackedMap κ ν, w.Makes s h m := by
  cases s with
  | base s => exact hOnly.elim
  | beginWrite entry container key opener => exact hOnly.elim
  | grab other source => exact hOnly.elim
  | share other m =>
      by_cases hEq : name = other
      · subst hEq
        exact Or.inr ⟨m, .share hName⟩
      · simp only [step] at hName
        rw [handle?_keepHandle, if_neg hEq] at hName
        exact Or.inl ⟨name, hName⟩
  | copy other source =>
      cases hSource : w.handle? source with
      | none =>
          simp only [step, hSource] at hName
          exact Or.inl ⟨name, hName⟩
      | some g =>
          simp only [step, hSource] at hName
          rw [handle?_keepHandle] at hName
          split at hName
          · cases hName
            exact Or.inl ⟨source, hSource⟩
          · exact Or.inl ⟨name, hName⟩
  | detach other source =>
      cases hSource : w.handle? source with
      | none =>
          simp only [step, detach, hSource] at hName
          exact Or.inl ⟨name, hName⟩
      | some g =>
          by_cases hEq : name = other
          · subst hEq
            exact Or.inr ⟨w.read g, .detach hSource hName⟩
          · simp only [step, detach, hSource] at hName
            rw [handle?_keepHandle, if_neg hEq] at hName
            exact Or.inl ⟨name, hName⟩
  | call other c =>
      unfold handle? at hName
      rw [handles_call] at hName
      exact Or.inl ⟨name, hName⟩

/- Every handle that has a name was made on the way. -/
theorem exists_made
    {w : SharedWorkspace K κ ν}
    (hNone : ∀ name : String, w.handle? name = none)
    {steps : List (Step K κ ν)}
    (hOnly : ∀ s ∈ steps, s.OnHandles)
    {name : String}
    {h : MapHandle κ ν}
    (hName : (w.run steps).handle? name = some h) :
    ∃ (before : List (Step K κ ν)) (s : Step K κ ν)
      (after : List (Step K κ ν)) (m : TrackedMap κ ν),
      steps = before ++ s :: after ∧
        (w.run before).Makes s h m := by
  induction steps using List.reverseRecOn generalizing name with
  | nil =>
      rw [show w.run [] = w from rfl, hNone] at hName
      cases hName
  | append_singleton steps s ih =>
      rw [run_append] at hName
      have hLast : s.OnHandles := hOnly s (by simp)
      rcases named_or_made hLast hName with
        ⟨other, hOther⟩ | ⟨m, hMade⟩
      · have hEarlier : ∀ t ∈ steps, t.OnHandles := by
          intro t hMem
          exact hOnly t (List.mem_append_left _ hMem)
        rcases ih hEarlier hOther with
          ⟨before, t, after, m, hSplit, hMade⟩
        refine ⟨before, t, after ++ [s], m, ?_, hMade⟩
        simp [hSplit]
      · exact ⟨steps, s, [], m, rfl, hMade⟩

theorem next_run
    (w : SharedWorkspace K κ ν)
    (steps : List (Step K κ ν)) :
    w.base.store.next ≤ (w.run steps).base.store.next := by
  induction steps generalizing w with
  | nil => exact Nat.le_refl _
  | cons s steps ih =>
      exact
        Nat.le_trans (w.next_step s)
          (ih (w.step s).workspace)

/- Only handles of made maps have names. -/
theorem id_lt_next
    {w : SharedWorkspace K κ ν}
    (hNone : ∀ name : String, w.handle? name = none)
    {steps : List (Step K κ ν)}
    (hOnly : ∀ s ∈ steps, s.OnHandles)
    {name : String}
    {h : MapHandle κ ν}
    (hName : (w.run steps).handle? name = some h) :
    h.id < (w.run steps).base.store.next := by
  rcases exists_made hNone hOnly hName with
    ⟨before, s, after, m, rfl, hMade⟩
  rcases hMade.spec with ⟨hId, hNext, _⟩
  have hLater :=
    next_run ((w.run before).step s).workspace after
  rw [run_append]
  calc
    h.id < ((w.run before).step s).workspace.base.store.next :=
      by omega
    _ ≤ ((w.run before).run (s :: after)).base.store.next :=
      hLater

end SharedWorkspace

end OverlayCache

------------------------------------------------------------
-- Calls Through A Handle
------------------------------------------------------------

namespace OverlayCache

/- The replies to more calls come after those to the first. -/
theorem TrackedMap.run_append_fst
    {κ ν : Type} [Ord κ] [Std.TransOrd κ]
    (m : TrackedMap κ ν)
    (cs ds : List (Call κ ν)) :
    (m.run (cs ++ ds)).1 =
      (m.run cs).1 ++ ((m.run cs).2.run ds).1 := by
  induction cs generalizing m with
  | nil => rfl
  | cons c cs ih =>
      exact congrArg (List.cons (m.call c).1) (ih (m.call c).2)

namespace SharedWorkspace

variable {K κ ν : Type} [Ord K] [Ord κ]
variable [Std.TransOrd K] [Std.TransOrd κ]

theorem callsIn_append
    (w : SharedWorkspace K κ ν)
    (h : MapHandle κ ν)
    (steps rest : List (Step K κ ν)) :
    w.callsIn h (steps ++ rest) =
      w.callsIn h steps ++ (w.run steps).callsIn h rest := by
  induction steps generalizing w with
  | nil => rfl
  | cons s steps ih =>
      simp only [List.cons_append, callsIn, ih,
        List.append_assoc]
      rfl

theorem answersIn_append
    (w : SharedWorkspace K κ ν)
    (h : MapHandle κ ν)
    (steps rest : List (Step K κ ν)) :
    w.answersIn h (steps ++ rest) =
      w.answersIn h steps ++
        (w.run steps).answersIn h rest := by
  induction steps generalizing w with
  | nil => rfl
  | cons s steps ih =>
      simp only [List.cons_append, answersIn, ih,
        List.append_assoc]
      rfl

/- Nothing is called or answered through a nameless handle. -/
theorem calls_of_unnamed
    {w : SharedWorkspace K κ ν}
    {h : MapHandle κ ν}
    (hUnnamed : ∀ name : String, w.handle? name ≠ some h)
    {s : Step K κ ν}
    (hOnly : s.OnHandles) :
    w.callsOn h s = [] ∧ w.answersOn h s = [] := by
  cases s with
  | base s => exact hOnly.elim
  | call name c =>
      have hName := hUnnamed name
      exact ⟨if_neg hName, if_neg hName⟩
  | _ => exact ⟨rfl, rfl⟩

/- A map that is called answers as the map of the handle. -/
theorem answersOn_eq
    (w : SharedWorkspace K κ ν)
    (h : MapHandle κ ν)
    {s : Step K κ ν}
    (hOnly : s.OnHandles) :
    w.answersOn h s =
      ((w.read h).run (w.callsOn h s)).1 := by
  cases s with
  | base s => exact hOnly.elim
  | call name c =>
      by_cases hName : w.handle? name = some h
      · simp only [answersOn, callsOn, step, call, hName]
        rfl
      · simp only [answersOn, callsOn, if_neg hName]
        rfl
  | _ => rfl

theorem answersIn_eq
    {w : SharedWorkspace K κ ν}
    {h : MapHandle κ ν}
    (hNamed : h.id < w.base.store.next)
    {steps : List (Step K κ ν)}
    (hOnly : ∀ s ∈ steps, s.OnHandles) :
    w.answersIn h steps =
      ((w.read h).run (w.callsIn h steps)).1 := by
  induction steps generalizing w with
  | nil => rfl
  | cons s steps ih =>
      rcases List.forall_mem_cons.mp hOnly with
        ⟨hFirst, hRest⟩
      have hStill :
          h.id < (w.step s).workspace.base.store.next :=
        Nat.lt_of_lt_of_le hNamed (w.next_step s)
      rw [answersIn, callsIn, TrackedMap.run_append_fst,
        answersOn_eq w h hFirst, ih hStill hRest,
        read_step hNamed]

/- Before its map is made, a handle is not called through. -/
theorem calls_before_made
    {w : SharedWorkspace K κ ν}
    (hNone : ∀ name : String, w.handle? name = none)
    {steps : List (Step K κ ν)}
    (hOnly : ∀ s ∈ steps, s.OnHandles)
    {h : MapHandle κ ν}
    (hLater : (w.run steps).base.store.next ≤ h.id) :
    w.callsIn h steps = [] ∧ w.answersIn h steps = [] := by
  induction steps using List.reverseRecOn with
  | nil => exact ⟨rfl, rfl⟩
  | append_singleton steps s ih =>
      have hLast : s.OnHandles := hOnly s (by simp)
      have hEarlier : ∀ t ∈ steps, t.OnHandles := by
        intro t hMem
        exact hOnly t (List.mem_append_left _ hMem)
      have hNext :
          (w.run steps).base.store.next ≤ h.id := by
        rw [run_append] at hLater
        exact
          Nat.le_trans ((w.run steps).next_step s) hLater
      have hUnnamed :
          ∀ name : String,
            (w.run steps).handle? name ≠ some h := by
        intro name hName
        have hBelow := id_lt_next hNone hEarlier hName
        omega
      rcases ih hEarlier hNext with ⟨hCalls, hAnswers⟩
      rcases calls_of_unnamed hUnnamed hLast with
        ⟨hCall, hAnswer⟩
      rw [callsIn_append, answersIn_append, hCalls, hAnswers]
      simp [callsIn, answersIn, hCall, hAnswer]

/-
  From the step on that makes it, a handle reads and answers
  as its map does when it is called by itself.
-/
theorem run_of_made
    {w : SharedWorkspace K κ ν}
    (hNone : ∀ name : String, w.handle? name = none)
    {before after : List (Step K κ ν)}
    {s : Step K κ ν}
    (hOnly : ∀ t ∈ before ++ s :: after, t.OnHandles)
    {h : MapHandle κ ν}
    {m : TrackedMap κ ν}
    (hMade : (w.run before).Makes s h m) :
    let made := ((w.run before).step s).workspace
    let steps := before ++ s :: after
    w.callsIn h steps = made.callsIn h after ∧
      (w.run steps).read h = (m.run (w.callsIn h steps)).2 ∧
      w.answersIn h steps =
        (m.run (w.callsIn h steps)).1 := by
  intro made steps
  rcases hMade.spec with ⟨hId, hNext, hRead⟩
  have hNamed : h.id < made.base.store.next := by
    simp only [made]
    omega
  have hBefore : ∀ t ∈ before, t.OnHandles :=
    fun t hMem => hOnly t (List.mem_append_left _ hMem)
  have hAfter : ∀ t ∈ after, t.OnHandles := by
    intro t hMem
    exact
      hOnly t
        (List.mem_append_right _ (List.mem_cons_of_mem s hMem))
  rcases calls_before_made hNone hBefore
      (Nat.le_of_eq hId.symm) with
    ⟨hCalls, hAnswers⟩
  have hSilent :
      (w.run before).callsOn h s = [] ∧
        (w.run before).answersOn h s = [] := by
    cases hMade with
    | share hName => exact ⟨rfl, rfl⟩
    | detach hSource hName => exact ⟨rfl, rfl⟩
  have hAll : w.callsIn h steps = made.callsIn h after := by
    simp only [steps, callsIn_append, hCalls, callsIn,
      hSilent.1, List.nil_append]
    rfl
  refine ⟨hAll, ?_, ?_⟩
  · have hEnd := read_run hNamed after
    rw [hRead, ← hAll] at hEnd
    simp only [steps, run_append]
    exact hEnd
  · have hEnd := answersIn_eq hNamed hAfter
    rw [hRead, ← hAll] at hEnd
    simp only [steps, answersIn_append, hAnswers, answersIn,
      hSilent.2, List.nil_append] at hEnd ⊢
    exact hEnd

end SharedWorkspace

end OverlayCache

------------------------------------------------------------
-- Calls Through Other Handles
------------------------------------------------------------

namespace OverlayCache

namespace SharedWorkspace

variable {K κ ν : Type} [Ord K] [Ord κ]

/- Two workspaces name the same handles, now and later. -/
structure SameNames (v w : SharedWorkspace K κ ν) : Prop where
  handles : v.handles = w.handles
  next : v.base.store.next = w.base.store.next

variable {v w : SharedWorkspace K κ ν}

namespace SameNames

theorem handle?_eq
    (hSame : v.SameNames w)
    (name : String) :
    v.handle? name = w.handle? name := by
  unfold SharedWorkspace.handle?
  rw [hSame.handles]

variable [Std.TransOrd K] [Std.TransOrd κ]

/- What is made and copied does not depend on any call. -/
theorem step
    (hSame : v.SameNames w)
    {s : Step K κ ν}
    (hOnly : s.OnHandles) :
    (v.step s).workspace.SameNames (w.step s).workspace := by
  cases s with
  | base s => exact hOnly.elim
  | beginWrite entry container key opener => exact hOnly.elim
  | grab other source => exact hOnly.elim
  | share name m =>
      refine ⟨?_, congrArg Nat.succ hSame.next⟩
      change
        v.handles.insert name ⟨v.base.store.next⟩ =
          w.handles.insert name ⟨w.base.store.next⟩
      rw [hSame.handles, hSame.next]
  | copy name source =>
      simp only [SharedWorkspace.step, hSame.handle?_eq source]
      cases w.handle? source with
      | none => exact hSame
      | some h =>
          exact
            ⟨congrArg (fun hs => hs.insert name h)
                hSame.handles,
              hSame.next⟩
  | detach name source =>
      simp only [SharedWorkspace.step, SharedWorkspace.detach,
        hSame.handle?_eq source]
      cases w.handle? source with
      | none => exact hSame
      | some h =>
          refine ⟨?_, congrArg Nat.succ hSame.next⟩
          change
            v.handles.insert name ⟨v.base.store.next⟩ =
              w.handles.insert name ⟨w.base.store.next⟩
          rw [hSame.handles, hSame.next]
  | call name c =>
      simp only [SharedWorkspace.step, SharedWorkspace.call,
        hSame.handle?_eq name]
      cases w.handle? name with
      | none => exact hSame
      | some h => exact ⟨hSame.handles, hSame.next⟩

/- A call may be left out on one side. -/
theorem step_call
    (hSame : v.SameNames w)
    (name : String)
    (c : TrackedMap.Call κ ν) :
    v.SameNames (w.step (.call name c)).workspace := by
  refine ⟨?_, ?_⟩
  · rw [handles_call, hSame.handles]
  · simp only [SharedWorkspace.step, SharedWorkspace.call]
    split
    · exact hSame.next
    · exact hSame.next

theorem callsOn_eq
    (hSame : v.SameNames w)
    (h : MapHandle κ ν)
    {s : Step K κ ν}
    (hOnly : s.OnHandles) :
    v.callsOn h s = w.callsOn h s := by
  cases s with
  | base s => exact hOnly.elim
  | call name c =>
      simp only [callsOn, hSame.handle?_eq name]
  | _ => rfl

end SameNames

variable [Std.TransOrd K] [Std.TransOrd κ]

theorem mem_of_mem_callingOnly
    {h : MapHandle κ ν}
    {steps : List (Step K κ ν)}
    {s : Step K κ ν}
    (hMem : s ∈ w.callingOnly h steps) :
    s ∈ steps := by
  induction steps generalizing w with
  | nil => exact hMem
  | cons t steps ih =>
      simp only [callingOnly] at hMem
      split at hMem
      · exact List.mem_cons_of_mem t (ih hMem)
      · rcases List.mem_cons.mp hMem with rfl | hLater
        · exact List.mem_cons_self
        · exact List.mem_cons_of_mem t (ih hLater)

/-
  The calls through a handle are the same when those through
  other handles are left out.
-/
theorem callsIn_callingOnly
    (hSame : v.SameNames w)
    (h : MapHandle κ ν)
    {steps : List (Step K κ ν)}
    (hOnly : ∀ s ∈ steps, s.OnHandles) :
    v.callsIn h (w.callingOnly h steps) =
      w.callsIn h steps := by
  induction steps generalizing v w with
  | nil => rfl
  | cons s steps ih =>
      rcases List.forall_mem_cons.mp hOnly with
        ⟨hFirst, hRest⟩
      cases hApart : w.callsApartFrom h s with
      | false =>
          have hStep := ih (hSame.step hFirst) hRest
          simp only [callingOnly, hApart, Bool.false_eq_true,
            if_false, callsIn, hSame.callsOn_eq h hFirst,
            hStep]
      | true =>
          cases s with
          | call name c =>
              have hOther : w.handle? name ≠ some h :=
                of_decide_eq_true hApart
              have hStep := ih (hSame.step_call name c) hRest
              have hSilent : w.callsOn h (.call name c) = [] :=
                if_neg hOther
              simp only [callingOnly, hApart, callsIn, hSilent]
              exact hStep
          | _ => cases hApart

end SharedWorkspace

end OverlayCache

------------------------------------------------------------
-- Handles And Their Maps
------------------------------------------------------------

namespace OverlayCache

namespace SharedWorkspace

variable {K κ ν : Type} [Ord K] [Ord κ]
variable [Std.TransOrd K] [Std.TransOrd κ]

/-
  Handles are made for new maps, made from the maps of other
  handles, and copied, and maps are called through them, in
  any order.  Every handle with a name was made on the way,
  with an identity that no handle had, and its copies have the
  same identity.

  Let `m` be the map that a handle was made for: the given
  one, or what the source read at that time.  Then the handle
  reads what the calls through its identity, and only those,
  make of `m` in their order, and each of them is answered as
  `m` answers it.  The calls through other handles might as
  well be left out after the handle was made, those through
  the source and through maps made from it included.
-/
theorem handles_stand_for_maps
    {steps : List (Step K κ ν)}
    (hOnly : ∀ s ∈ steps, s.OnHandles) :
    let start : SharedWorkspace K κ ν := {}
    (∀ (name : String) (h : MapHandle κ ν),
      (start.run steps).handle? name = some h →
        (∃ (before : List (Step K κ ν)) (s : Step K κ ν)
            (after : List (Step K κ ν))
            (m : TrackedMap κ ν),
          steps = before ++ s :: after ∧
            (start.run before).Makes s h m) ∧
          ∀ copy : String,
            ((start.run steps).step
              (.copy copy name)).workspace.handle? copy =
                some h) ∧
      ∀ (before : List (Step K κ ν)) (s : Step K κ ν)
        (after : List (Step K κ ν)) (h : MapHandle κ ν)
        (m : TrackedMap κ ν),
        steps = before ++ s :: after →
          (start.run before).Makes s h m →
            let calls := start.callsIn h steps
            let made := ((start.run before).step s).workspace
            let kept :=
              before ++ s :: made.callingOnly h after
            (∀ name : String,
              (start.run before).handle? name ≠ some h) ∧
              (start.run steps).read h = (m.run calls).2 ∧
              start.answersIn h steps = (m.run calls).1 ∧
              (start.run kept).read h =
                (start.run steps).read h ∧
              start.answersIn h kept =
                start.answersIn h steps := by
  intro start
  have hNone : ∀ name : String, start.handle? name = none := by
    intro name
    simp [start, handle?]
  refine ⟨?_, ?_⟩
  · intro name h hName
    exact
      ⟨exists_made hNone hOnly hName,
        fun copy => handle?_copy hName copy⟩
  · rintro before s after h m rfl hMade calls made kept
    rcases run_of_made hNone hOnly hMade with
      ⟨hCalls, hRead, hAnswers⟩
    have hKept : ∀ t ∈ kept, t.OnHandles := by
      intro t hMem
      apply hOnly t
      rcases List.mem_append.mp hMem with hMem | hMem
      · exact List.mem_append_left _ hMem
      · rcases List.mem_cons.mp hMem with rfl | hMem
        · simp
        · have hLater := mem_of_mem_callingOnly hMem
          simp [hLater]
    rcases run_of_made hNone hKept hMade with
      ⟨hCallsKept, hReadKept, hAnswersKept⟩
    have hAfter : ∀ t ∈ after, t.OnHandles := by
      intro t hMem
      exact hOnly t (by simp [hMem])
    have hSame : start.callsIn h kept = calls := by
      refine hCallsKept.trans (Eq.trans ?_ hCalls.symm)
      exact callsIn_callingOnly ⟨rfl, rfl⟩ h hAfter
    refine ⟨?_, hRead, hAnswers, ?_, ?_⟩
    · intro name hName
      have hBefore : ∀ t ∈ before, t.OnHandles :=
        fun t hMem => hOnly t (List.mem_append_left _ hMem)
      have hBelow := id_lt_next hNone hBefore hName
      have hId := hMade.spec.1
      omega
    · rw [hReadKept, hSame, hRead]
    · rw [hAnswersKept, hSame, hAnswers]

/-
  A map is written through a handle and detached from it, with
  what it has recorded.  Then it is written through a copy of
  the handle, and the detached map through its own handle,
  which is drained in the end.
-/
def detachedSteps : List (Step Nat Nat Nat) :=
  [.share "m" (.ofList [(1, 10)]),
    .call "m" (.perform (.put 2 20)),
    .copy "c" "m",
    .detach "d" "m",
    .call "c" (.perform (.remove 1)),
    .call "d" (.perform (.put 1 11)),
    .call "m" .settle,
    .call "d" .drain]

/-
  The detached map answers with the value that its source had
  when it was detached, and drains what both have recorded.
-/
theorem handles_stand_for_maps_of_detached :
    let start : SharedWorkspace Nat Nat Nat := {}
    let h : MapHandle Nat Nat := ⟨1⟩
    let before := detachedSteps.take 3
    let m := (start.run before).read ⟨0⟩
    let calls := start.callsIn h detachedSteps
    m.toList = [(1, 10), (2, 20)] ∧
      m.changes = [.put 2 20] ∧
      calls = [.perform (.put 1 11), .drain] ∧
      start.answersIn h detachedSteps =
        [.previous (some 10),
          .drained ⟨[.put 2 20, .put 1 11]⟩] ∧
      (start.run detachedSteps).read h = (m.run calls).2 ∧
      start.answersIn h detachedSteps = (m.run calls).1 := by
  intro start h before m calls
  have hOnly : ∀ s ∈ detachedSteps, s.OnHandles := by
    simp [detachedSteps, Step.OnHandles]
  have hMade : (start.run before).Makes (.detach "d" "m") h m :=
    .detach (by decide +kernel) (by decide +kernel)
  rcases (handles_stand_for_maps hOnly).2 before _ _ h m rfl
      hMade with
    ⟨_, hRead, hAnswers, _⟩
  refine
    ⟨by decide +kernel, by decide +kernel, ?_, ?_, hRead,
      hAnswers⟩
  · rfl
  · rw [hAnswers]
    rfl

end SharedWorkspace

end OverlayCache
