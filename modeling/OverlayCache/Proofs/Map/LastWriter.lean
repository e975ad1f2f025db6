import Mathlib.Data.List.Forall2
import OverlayCache.Proofs.Map.Interleaved

/-
  Tracked maps as finite maps.

  What a map has under a key is what was put there last, by
  one of the pairs that it was built from, by a direct
  mutation or by a received delta, unless the key was removed
  or the map was cleared since.  All reads agree about that.

  Maps compare equal when they have the same mappings.  What
  they have recorded never shows in a read, so maps that
  compare equal cannot be told apart but by what is drained
  from them.

  Key definitions include:
    * `TrackedMap.Use`
    * `MapOp.IsLastPut`
    * `TrackedMap.Shows`
    * `TrackedMap.ReadsAlike`

  The main statements are:
    * `TrackedMap.get?_replay_ops_iff`
    * `TrackedMap.agrees_iff_sameMappings`
    * `TrackedMap.agrees_iff_get?`
    * `TrackedMap.last_writers_decide`
-/

------------------------------------------------------------
-- Uses Of A Map
------------------------------------------------------------

namespace OverlayCache

namespace TrackedMap

variable {κ ν : Type}

/- A call of a client, or a delta that is folded in. -/
inductive Use (κ ν : Type) where
| call (c : Call κ ν)
| merge (delta : MapDelta κ ν)

/- The operations that are carried out on the mappings. -/
def Use.ops : Use κ ν → List (MapOp κ ν)
| .call c => c.effect.ops
| .merge delta => delta.ops

/- All writes to a map that is built from pairs and used. -/
def writes
    (pairs : List (κ × ν))
    (us : List (Use κ ν)) : List (MapOp κ ν) :=
  pairs.map (fun p => .put p.1 p.2) ++ us.flatMap Use.ops

variable [Ord κ] [Std.TransOrd κ]

/- Carry out one use. -/
def use (m : TrackedMap κ ν) :
    Use κ ν → Reply κ ν × TrackedMap κ ν
| .call c => m.call c
| .merge delta => (.done, Delta.merge delta m)

/- Carry out uses in order, collecting the replies. -/
def useAll
    (m : TrackedMap κ ν) :
    List (Use κ ν) → List (Reply κ ν) × TrackedMap κ ν
| [] => ([], m)
| u :: us =>
    let t := m.use u
    let r := t.2.useAll us
    (t.1 :: r.1, r.2)

theorem entries_use
    (m : TrackedMap κ ν)
    (u : Use κ ν) :
    (m.use u).2.entries = (replayDelta ⟨u.ops⟩ m).entries := by
  cases u with
  | call c => exact m.entries_call c
  | merge delta => rfl

theorem entries_useAll
    (m : TrackedMap κ ν)
    (us : List (Use κ ν)) :
    (m.useAll us).2.entries =
      (replayDelta ⟨us.flatMap Use.ops⟩ m).entries := by
  induction us generalizing m with
  | nil => rfl
  | cons u us ih =>
      have hRest := ih (m.use u).2
      have hFirst :=
        entries_replayDelta (m.entries_use u)
          ⟨us.flatMap Use.ops⟩
      refine (hRest.trans hFirst).trans ?_
      simp only [replayDelta, List.flatMap_cons,
        List.foldl_append]

theorem entries_ofList
    (pairs : List (κ × ν)) :
    (ofList pairs).entries =
      (replayDelta
        ⟨pairs.map (fun p => .put p.1 p.2)⟩ empty).entries := by
  have hFold :
      ∀ m : TrackedMap κ ν,
        pairs.foldl (fun es p => es.insert p.1 p.2) m.entries =
          (replayDelta
            ⟨pairs.map (fun p => .put p.1 p.2)⟩
            m).entries := by
    induction pairs with
    | nil => exact fun _ => rfl
    | cons p pairs ih =>
        exact fun m => ih (m.replay (.put p.1 p.2))
  exact hFold empty

/- A map that is built and used has what its writes leave. -/
theorem entries_useAll_ofList
    (pairs : List (κ × ν))
    (us : List (Use κ ν)) :
    ((ofList pairs).useAll us).2.entries =
      (replayDelta ⟨writes pairs us⟩ empty).entries := by
  have hBuilt :=
    entries_replayDelta (entries_ofList pairs)
      ⟨us.flatMap Use.ops⟩
  refine ((entries_useAll _ us).trans hBuilt).trans ?_
  simp only [replayDelta, writes, List.foldl_append]

end TrackedMap

end OverlayCache

------------------------------------------------------------
-- Last Writers
------------------------------------------------------------

namespace OverlayCache

variable {κ ν : Type} [Ord κ]

/-
  A value is put under a key, and no later operation puts or
  removes the key or clears the map.
-/
def MapOp.IsLastPut
    (ops : List (MapOp κ ν))
    (k : κ)
    (v : ν) : Prop :=
  ∃ (earlier : List (MapOp κ ν)) (key : κ)
      (later : List (MapOp κ ν)),
    ops = earlier ++ .put key v :: later ∧
      compare key k = .eq ∧
      ∀ op ∈ later, op.touches k = false

/-
  The last operation that touches a key splits a list so that
  none that follows it does.
-/
theorem MapOp.find?_reverse_eq_some_iff
    {ops : List (MapOp κ ν)}
    {k : κ}
    {op : MapOp κ ν} :
    ops.reverse.find? (fun o => o.touches k) = some op ↔
      op.touches k = true ∧
        ∃ earlier later : List (MapOp κ ν),
          ops = earlier ++ op :: later ∧
            ∀ o ∈ later, o.touches k = false := by
  rw [List.find?_eq_some_iff_append]
  refine and_congr_right (fun _ => ?_)
  constructor
  · rintro ⟨later, earlier, hSplit, hLater⟩
    refine ⟨earlier.reverse, later.reverse, ?_, ?_⟩
    · rw [← List.reverse_reverse ops, hSplit]
      simp
    · intro o hMem
      simpa using hLater o (List.mem_reverse.mp hMem)
  · rintro ⟨earlier, later, rfl, hLater⟩
    refine ⟨later.reverse, earlier.reverse, by simp, ?_⟩
    intro o hMem
    simp [hLater o (List.mem_reverse.mp hMem)]

namespace TrackedMap

variable [Std.TransOrd κ]

/- From no mappings on, the last put of a key decides. -/
theorem get?_replay_ops_iff
    (ops : List (MapOp κ ν))
    (k : κ)
    (v : ν) :
    (replayDelta ⟨ops⟩ empty).get? k = some v ↔
      MapOp.IsLastPut ops k v := by
  have hRead := get?_replay_ops empty ops k
  have hEmpty : (empty : TrackedMap κ ν).get? k = none := by
    simp [get?, empty]
  rw [hEmpty] at hRead
  rw [show (replayDelta ⟨ops⟩ empty).get? k = _ from hRead]
  constructor
  · intro hSome
    cases hLast :
        ops.reverse.find? (fun op => op.touches k) with
    | none => simp [hLast] at hSome
    | some op =>
        simp only [hLast, Option.map_some,
          Option.getD_some] at hSome
        rcases MapOp.find?_reverse_eq_some_iff.mp hLast with
          ⟨hTouches, earlier, later, hSplit, hLater⟩
        -- Only a put leaves a value under the keys it touches.
        cases op with
        | put key value =>
            cases hSome
            rw [MapOp.touches_of_key? rfl, beq_iff_eq]
              at hTouches
            exact ⟨earlier, key, later, hSplit, hTouches, hLater⟩
        | remove key => cases hSome
        | clear => cases hSome
  · rintro ⟨earlier, key, later, hSplit, hKey, hLater⟩
    have hTouches :
        (MapOp.put key v).touches k = true := by
      rw [MapOp.touches_of_key? rfl, beq_iff_eq]
      exact hKey
    rw [MapOp.find?_reverse_eq_some_iff.mpr
      ⟨hTouches, earlier, later, hSplit, hLater⟩]
    rfl

/-
  A map shows what operations leave.  It answers for a key
  with the value that is put there last, its mutations give
  back just that, and it lists these mappings in the order of
  their keys, each once.
-/
structure Shows
    (n : TrackedMap κ ν)
    (ops : List (MapOp κ ν)) : Prop where
  get? :
    ∀ (k : κ) (v : ν),
      n.get? k = some v ↔ MapOp.IsLastPut ops k v
  previous :
    ∀ (op : MapOp κ ν) (key : κ),
      op.key? = some key →
        (n.use (.call (.perform op))).1 =
          .previous (n.get? key)
  listed :
    ∀ (k : κ) (v : ν),
      (∃ key : κ, compare k key = .eq ∧ (key, v) ∈ n.toList) ↔
        n.get? k = some v
  ordered :
    n.toList.Pairwise (fun p q => compare p.1 q.1 = .lt)
  size : n.size = n.toList.length
  isEmpty : n.isEmpty = n.toList.isEmpty
  contains : ∀ k : κ, n.contains k = (n.get? k).isSome

theorem mem_toList_iff
    (n : TrackedMap κ ν)
    (k : κ)
    (v : ν) :
    (∃ key : κ, compare k key = .eq ∧ (key, v) ∈ n.toList) ↔
      n.get? k = some v := by
  symm
  apply
    Std.ExtTreeMap.getElem?_eq_some_iff_exists_compare_eq_eq_and_mem_toList

theorem shows_of_entries
    {n : TrackedMap κ ν}
    {ops : List (MapOp κ ν)}
    (hEntries :
      n.entries = (replayDelta ⟨ops⟩ empty).entries) :
    n.Shows ops where
  get? := by
    intro k v
    rw [← get?_replay_ops_iff]
    unfold TrackedMap.get?
    rw [hEntries]
  previous := by
    intro op key hKey
    have hReply := n.perform_fst op
    rw [hKey] at hReply
    exact congrArg Reply.previous hReply
  listed := n.mem_toList_iff
  ordered := Std.ExtTreeMap.ordered_keys_toList
  size := Std.ExtTreeMap.length_toList.symm
  isEmpty := Std.ExtTreeMap.isEmpty_toList.symm
  contains := by
    intro k
    exact Std.ExtTreeMap.contains_eq_isSome_getElem?

end TrackedMap

end OverlayCache

------------------------------------------------------------
-- Lists In Key Order
------------------------------------------------------------

namespace OverlayCache

namespace TrackedMap

variable {κ ν : Type} [Ord κ] [Std.TransOrd κ]

/-
  A list of mappings in key order is part of another one, up
  to a relation on equal keys, if all its mappings are.
-/
theorem sublistForall₂_of_ordered
    {R : κ × ν → κ × ν → Prop}
    (hKeys : ∀ p q : κ × ν, R p q → compare p.1 q.1 = .eq)
    {ps qs : List (κ × ν)}
    (hPs : ps.Pairwise (fun p q => compare p.1 q.1 = .lt))
    (hQs : qs.Pairwise (fun p q => compare p.1 q.1 = .lt))
    (hFound : ∀ p ∈ ps, ∃ q ∈ qs, R p q) :
    List.SublistForall₂ R ps qs := by
  induction qs generalizing ps with
  | nil =>
      cases ps with
      | nil => exact .nil
      | cons p ps =>
          rcases hFound p List.mem_cons_self with ⟨_, hMem, _⟩
          cases hMem
  | cons q qs ih =>
      rcases List.pairwise_cons.mp hQs with ⟨hAfter, hRest⟩
      cases ps with
      | nil => exact .nil
      | cons p ps =>
          rcases List.pairwise_cons.mp hPs with
            ⟨hAfterP, hRestP⟩
          -- No key after the first one can be equal to it.
          have hTail :
              (compare q.1 p.1).isLE = true →
                ∀ r ∈ ps, ∃ s ∈ qs, R r s := by
            intro hLe r hMem
            rcases hFound r (List.mem_cons_of_mem p hMem) with
              ⟨s, hIn, hR⟩
            refine ⟨s, ?_, hR⟩
            apply (List.mem_cons.mp hIn).resolve_left
            intro hEq
            have hLt : compare q.1 r.1 = .lt :=
              Std.TransCmp.lt_of_isLE_of_lt hLe
                (hAfterP r hMem)
            have hSame : compare q.1 r.1 = .eq := by
              rw [← hEq]
              exact Std.OrientedCmp.eq_symm (hKeys r s hR)
            rw [hLt] at hSame
            cases hSame
          rcases hFound p List.mem_cons_self with ⟨s, hIn, hR⟩
          have hSame : compare s.1 p.1 = .eq :=
            Std.OrientedCmp.eq_symm (hKeys p s hR)
          rcases List.mem_cons.mp hIn with hEq | hIn
          · rw [hEq] at hR hSame
            refine .cons hR (ih hRestP hRest (hTail ?_))
            rw [hSame]
            rfl
          · have hLt : compare q.1 p.1 = .lt :=
              Std.TransCmp.lt_of_lt_of_eq (hAfter s hIn) hSame
            refine .cons_right (ih hPs hRest ?_)
            rw [List.forall_mem_cons]
            refine ⟨⟨s, hIn, hR⟩, hTail ?_⟩
            rw [hLt]
            rfl

/- So it is not longer. -/
theorem length_le_of_ordered
    {R : κ × ν → κ × ν → Prop}
    (hKeys : ∀ p q : κ × ν, R p q → compare p.1 q.1 = .eq)
    {ps qs : List (κ × ν)}
    (hPs : ps.Pairwise (fun p q => compare p.1 q.1 = .lt))
    (hQs : qs.Pairwise (fun p q => compare p.1 q.1 = .lt))
    (hFound : ∀ p ∈ ps, ∃ q ∈ qs, R p q) :
    ps.length ≤ qs.length := by
  have hPart := sublistForall₂_of_ordered hKeys hPs hQs hFound
  rcases List.sublistForall₂_iff.mp hPart with
    ⟨rs, hRelated, hSublist⟩
  rw [hRelated.length_eq]
  exact hSublist.length_le

end TrackedMap

end OverlayCache

------------------------------------------------------------
-- Maps That Compare Equal
------------------------------------------------------------

namespace OverlayCache

namespace TrackedMap

open Std.DTreeMap.Internal (Impl)

variable {κ ν : Type} [Ord κ] [BEq ν]

/- Mappings with equal keys and values that compare equal. -/
def SameMapping (p q : κ × ν) : Prop :=
  compare p.1 q.1 = .eq ∧ (q.2 == p.2) = true

variable [Std.TransOrd κ]
variable {m n : TrackedMap κ ν}

/- Looking up a mapping is finding it in the list. -/
theorem get?_beq_some_iff
    (n : TrackedMap κ ν)
    (p : κ × ν) :
    (n.get? p.1 == some p.2) = true ↔
      ∃ q ∈ n.toList, SameMapping p q := by
  constructor
  · intro hFound
    cases hGet : n.get? p.1 with
    | none =>
        rw [hGet] at hFound
        cases hFound
    | some w =>
        rw [hGet] at hFound
        rcases (n.mem_toList_iff p.1 w).mpr hGet with
          ⟨key, hKey, hMem⟩
        exact ⟨(key, w), hMem, hKey, hFound⟩
  · rintro ⟨q, hMem, hKey, hValue⟩
    have hGet : n.get? p.1 = some q.2 :=
      (n.mem_toList_iff p.1 q.2).mp ⟨q.1, hKey, hMem⟩
    rw [hGet]
    exact hValue

/- The comparison counts mappings and looks each one up. -/
theorem agrees_iff_lookups :
    m.agrees n = true ↔
      m.size = n.size ∧
        ∀ p ∈ m.toList, (n.get? p.1 == some p.2) = true := by
  rcases m with ⟨⟨⟨es⟩⟩, _⟩
  rcases n with ⟨⟨⟨fs⟩⟩, _⟩
  -- The trees behind both maps are compared.
  induction es using Quotient.inductionOn with
  | _ es =>
      induction fs using Quotient.inductionOn with
      | _ fs =>
          change
            Impl.Const.beq es.inner fs.inner = true ↔
              es.inner.size = fs.inner.size ∧
                ∀ p ∈ Impl.Const.toList es.inner,
                  (Impl.Const.get? fs.inner p.1 ==
                    some p.2) = true
          unfold Impl.Const.beq
          rw [Impl.all_eq_all_toListModel,
            Impl.Const.toList_eq_toListModel_map,
            List.forall_mem_map, ← List.all_eq_true]
          by_cases hSize : es.inner.size = fs.inner.size
          · rw [if_neg (not_not_intro hSize)]
            exact (and_iff_right hSize).symm
          · rw [if_pos hSize]
            exact iff_of_false Bool.false_ne_true
              (fun hBoth => hSize hBoth.1)

/- Mappings of one list have counterparts in the other. -/
omit [Std.TransOrd κ] in
theorem exists_mem_of_sameMappings
    {ps qs : List (κ × ν)}
    (h : List.Forall₂ SameMapping ps qs) :
    (∀ p ∈ ps, ∃ q ∈ qs, SameMapping p q) ∧
      ∀ q ∈ qs, ∃ p ∈ ps, SameMapping p q := by
  induction h with
  | nil => simp
  | cons hFirst _ ih =>
      simp only [List.forall_mem_cons, List.exists_mem_cons_iff]
      exact
        ⟨⟨.inl hFirst, fun p hMem => .inr (ih.1 p hMem)⟩,
          .inl hFirst, fun q hMem => .inr (ih.2 q hMem)⟩

/- Maps compare equal if they list the same mappings. -/
theorem agrees_iff_sameMappings :
    m.agrees n = true ↔
      List.Forall₂ SameMapping m.toList n.toList := by
  have hLengths :
      m.size = n.size ↔ m.toList.length = n.toList.length := by
    unfold size toList
    rw [Std.ExtTreeMap.length_toList,
      Std.ExtTreeMap.length_toList]
  rw [agrees_iff_lookups, hLengths]
  simp only [get?_beq_some_iff]
  constructor
  · rintro ⟨hLength, hFound⟩
    have hPart :
        List.SublistForall₂ SameMapping m.toList n.toList :=
      sublistForall₂_of_ordered (fun _ _ hSame => hSame.1)
        Std.ExtTreeMap.ordered_keys_toList
        Std.ExtTreeMap.ordered_keys_toList hFound
    rcases List.sublistForall₂_iff.mp hPart with
      ⟨qs, hSame, hSublist⟩
    have hAll : qs = n.toList :=
      hSublist.eq_of_length (hSame.length_eq.symm.trans hLength)
    exact hAll ▸ hSame
  · intro hSame
    exact
      ⟨hSame.length_eq, (exists_mem_of_sameMappings hSame).1⟩

/- Then they have the same under every key. -/
theorem get?_of_agrees
    (hAgree : m.agrees n = true)
    (k : κ) :
    (n.get? k == m.get? k) = true := by
  rw [agrees_iff_sameMappings] at hAgree
  rcases exists_mem_of_sameMappings hAgree with
    ⟨hForward, hBackward⟩
  cases hGet : m.get? k with
  | some v =>
      rcases (m.mem_toList_iff k v).mpr hGet with
        ⟨key, hKey, hMem⟩
      rcases hForward _ hMem with ⟨q, hIn, hEq, hValue⟩
      exact
        (n.get?_beq_some_iff (k, v)).mpr
          ⟨q, hIn, Std.TransCmp.eq_trans hKey hEq, hValue⟩
  | none =>
      cases hOther : n.get? k with
      | none => rfl
      | some w =>
          rcases (n.mem_toList_iff k w).mpr hOther with
            ⟨key, hKey, hMem⟩
          rcases hBackward _ hMem with ⟨p, hIn, hEq, _⟩
          have hBack : compare k p.1 = .eq :=
            Std.TransCmp.eq_trans hKey
              (Std.OrientedCmp.eq_symm hEq)
          have hGot : m.get? k = some p.2 :=
            (m.mem_toList_iff k p.2).mp ⟨p.1, hBack, hIn⟩
          rw [hGet] at hGot
          cases hGot

/- Maps compare equal if they have the same under every key. -/
theorem agrees_iff_get? :
    m.agrees n = true ↔
      ∀ k : κ, (n.get? k == m.get? k) = true := by
  refine ⟨get?_of_agrees, ?_⟩
  intro hAll
  have hGet :
      ∀ (a : TrackedMap κ ν), ∀ p ∈ a.toList,
        a.get? p.1 = some p.2 :=
    fun a p hMem =>
      (a.mem_toList_iff p.1 p.2).mp
        ⟨p.1, Std.ReflCmp.compare_self, hMem⟩
  have hForward :
      ∀ p ∈ m.toList, (n.get? p.1 == some p.2) = true := by
    intro p hMem
    rw [← hGet m p hMem]
    exact hAll p.1
  have hBackward :
      ∀ q ∈ n.toList, ∃ p ∈ m.toList, SameMapping p q := by
    intro q hMem
    have hSame := hAll q.1
    rw [hGet n q hMem] at hSame
    cases hOther : m.get? q.1 with
    | none =>
        rw [hOther] at hSame
        cases hSame
    | some v =>
        rw [hOther] at hSame
        rcases (m.mem_toList_iff q.1 v).mpr hOther with
          ⟨key, hKey, hIn⟩
        exact
          ⟨(key, v), hIn, Std.OrientedCmp.eq_symm hKey, hSame⟩
  have hLe : m.toList.length ≤ n.toList.length :=
    length_le_of_ordered (fun _ _ hSame => hSame.1)
      Std.ExtTreeMap.ordered_keys_toList
      Std.ExtTreeMap.ordered_keys_toList
      (fun p hMem =>
        (n.get?_beq_some_iff p).mp (hForward p hMem))
  have hGe : n.toList.length ≤ m.toList.length :=
    length_le_of_ordered
      (R := fun q p => SameMapping p q)
      (fun _ _ hSame => Std.OrientedCmp.eq_symm hSame.1)
      Std.ExtTreeMap.ordered_keys_toList
      Std.ExtTreeMap.ordered_keys_toList hBackward
  rw [agrees_iff_lookups]
  refine ⟨?_, hForward⟩
  have hLength := Nat.le_antisymm hLe hGe
  unfold toList at hLength
  rwa [Std.ExtTreeMap.length_toList,
    Std.ExtTreeMap.length_toList] at hLength

end TrackedMap

end OverlayCache

------------------------------------------------------------
-- Runs Of Maps That Compare Equal
------------------------------------------------------------

namespace OverlayCache

namespace TrackedMap

variable {κ ν : Type} [BEq ν]

/-
  Replies that tell the same, when what is drained is not
  looked at.
-/
def Reply.Alike : Reply κ ν → Reply κ ν → Prop
| .done, .done => True
| .previous x, .previous y => (y == x) = true
| .drained _, .drained _ => True
| _, _ => False

variable [Ord κ] [Std.TransOrd κ]
variable {m n : TrackedMap κ ν}

/- Every read of one map has its counterpart in the other. -/
structure ReadsAlike (m n : TrackedMap κ ν) : Prop where
  get? : ∀ k : κ, (n.get? k == m.get? k) = true
  contains : ∀ k : κ, m.contains k = n.contains k
  size : m.size = n.size
  isEmpty : m.isEmpty = n.isEmpty
  toList : List.Forall₂ SameMapping m.toList n.toList

theorem readsAlike_of_agrees
    (hAgree : m.agrees n = true) :
    m.ReadsAlike n := by
  have hGet := get?_of_agrees hAgree
  have hLists := agrees_iff_sameMappings.mp hAgree
  have hSize := (agrees_iff_lookups.mp hAgree).1
  refine ⟨hGet, ?_, hSize, ?_, hLists⟩
  · intro k
    have hSame := hGet k
    unfold contains
    rw [Std.ExtTreeMap.contains_eq_isSome_getElem?,
      Std.ExtTreeMap.contains_eq_isSome_getElem?]
    change (m.get? k).isSome = (n.get? k).isSome
    cases hM : m.get? k with
    | none =>
        cases hN : n.get? k with
        | none => rfl
        | some w =>
            rw [hM, hN] at hSame
            cases hSame
    | some v =>
        cases hN : n.get? k with
        | none =>
            rw [hM, hN] at hSame
            cases hSame
        | some w => rfl
  · unfold size at hSize
    unfold isEmpty
    rw [Std.ExtTreeMap.isEmpty_eq_size_beq_zero,
      Std.ExtTreeMap.isEmpty_eq_size_beq_zero, hSize]

/- Only mappings are compared. -/
theorem agrees_of_entries
    {m' n' : TrackedMap κ ν}
    (hM : m'.entries = m.entries)
    (hN : n'.entries = n.entries) :
    m'.agrees n' = m.agrees n := by
  unfold agrees
  rw [hM, hN]

/- The same uses tell the same of both maps. -/
theorem alike_use
    (hAgree : m.agrees n = true)
    (u : Use κ ν) :
    (m.use u).1.Alike (n.use u).1 := by
  cases u with
  | call c =>
      cases c with
      | perform op =>
          change ((n.perform op).1 == (m.perform op).1) = true
          rw [perform_fst, perform_fst]
          cases op.key? with
          | none => rfl
          | some key => exact get?_of_agrees hAgree key
      | apply delta => trivial
      | drain => trivial
      | settle => trivial
  | merge delta => trivial

variable [ReflBEq ν]

/- The same operations leave the same under every key. -/
theorem agrees_replayDelta
    (hAgree : m.agrees n = true)
    (d : MapDelta κ ν) :
    (replayDelta d m).agrees (replayDelta d n) = true := by
  rw [agrees_iff_get?]
  intro k
  rw [get?_replayDelta d n, get?_replayDelta d m]
  by_cases hTouches : d.touches k
  · rw [if_pos hTouches, if_pos hTouches]
    exact beq_self_eq_true _
  · rw [if_neg hTouches, if_neg hTouches]
    exact get?_of_agrees hAgree k

theorem agrees_use
    (hAgree : m.agrees n = true)
    (u : Use κ ν) :
    (m.use u).2.agrees (n.use u).2 = true := by
  rw [agrees_of_entries (m.entries_use u) (n.entries_use u)]
  exact agrees_replayDelta hAgree ⟨u.ops⟩

theorem alike_useAll
    (hAgree : m.agrees n = true)
    (us : List (Use κ ν)) :
    List.Forall₂ Reply.Alike
        (m.useAll us).1 (n.useAll us).1 ∧
      (m.useAll us).2.agrees (n.useAll us).2 = true := by
  induction us generalizing m n with
  | nil => exact ⟨.nil, hAgree⟩
  | cons u us ih =>
      rcases ih (agrees_use hAgree u) with ⟨hReplies, hEnd⟩
      exact ⟨.cons (alike_use hAgree u) hReplies, hEnd⟩

/-
  A map is built from pairs and used in any way.  Then it
  shows what the writes of the pairs and of all uses leave, in
  their order: under each key the value that was put there
  last, unless the key was removed or the map was cleared
  afterwards.

  Two maps that compare equal, whatever they have recorded,
  give equal replies to the same uses, except for what is
  drained from them.  They still compare equal in the end, and
  every read finds the same in both.
-/
theorem last_writers_decide :
    (∀ (pairs : List (κ × ν)) (us : List (Use κ ν)),
      ((ofList pairs).useAll us).2.Shows (writes pairs us)) ∧
    ∀ a b : TrackedMap κ ν,
      a.agrees b = true →
        ∀ us : List (Use κ ν),
          let r := a.useAll us
          let s := b.useAll us
          List.Forall₂ Reply.Alike r.1 s.1 ∧
            r.2.agrees s.2 = true ∧
            r.2.ReadsAlike s.2 := by
  constructor
  · intro pairs us
    exact shows_of_entries (entries_useAll_ofList pairs us)
  · intro a b hAgree us r s
    rcases alike_useAll hAgree us with ⟨hReplies, hEnd⟩
    exact ⟨hReplies, hEnd, readsAlike_of_agrees hEnd⟩

/-
  Pairs give two values for a key, which is removed later on.
  Another map has recorded that it got its mappings one by
  one, and is used in the same way from then on.
-/
theorem last_writers_decide_removed :
    let m : TrackedMap Nat Nat :=
      .ofList [(2, 20), (1, 10), (2, 21)]
    let n : TrackedMap Nat Nat :=
      (empty.useAll
        [.call (.perform (.put 1 10)), .merge ⟨[.put 2 21]⟩]).2
    let us : List (Use Nat Nat) :=
      [.call (.perform (.put 3 30)), .call .drain,
        .merge ⟨[.remove 2, .put 1 11]⟩, .call .settle]
    let r := m.useAll us
    let s := n.useAll us
    m.changes ≠ n.changes ∧
      r.2.toList = [(1, 11), (3, 30)] ∧
      MapOp.IsLastPut
        (writes [(2, 20), (1, 10), (2, 21)] us) 1 11 ∧
      (¬ ∃ v : Nat,
        MapOp.IsLastPut
          (writes [(2, 20), (1, 10), (2, 21)] us) 2 v) ∧
      List.Forall₂ Reply.Alike r.1 s.1 ∧
      r.2.agrees s.2 = true := by
  intro m n us r s
  rcases last_writers_decide (κ := Nat) (ν := Nat) with
    ⟨hBuilt, hAlike⟩
  have hShows := hBuilt [(2, 20), (1, 10), (2, 21)] us
  have hAgree : m.agrees n = true := by decide
  rcases hAlike m n hAgree us with ⟨hReplies, hEnd, _⟩
  have hOne : r.2.get? 1 = some 11 := by decide
  have hTwo : r.2.get? 2 = none := by decide
  refine
    ⟨by decide, by decide, (hShows.get? 1 11).mp hOne, ?_,
      hReplies, hEnd⟩
  rintro ⟨v, hPut⟩
  have hSome := (hShows.get? 2 v).mpr hPut
  rw [hTwo] at hSome
  cases hSome

end TrackedMap

end OverlayCache
