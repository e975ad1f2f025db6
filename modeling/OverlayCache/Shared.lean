import Std.Data.ExtTreeMap
import OverlayCache.Delta
import OverlayCache.Text.Outline

/-
  Aggregates shared through handles.

  A handle names an aggregate, and the heap holds the
  aggregates.  Copies of a handle name the same aggregate, so
  a change through one of them is seen through all.

  Reading and writing are total: an aggregate that was never
  written reads as the default one.

  Key definitions include:
    * `Handle`
    * `Heap`
    * `Heap.read`
    * `Heap.write`
    * `Heap.alloc`
    * `Heap.outlineOf`
-/

------------------------------------------------------------
-- Handles And Heaps
------------------------------------------------------------

namespace OverlayCache

/- The name of a shared aggregate. -/
structure Handle (α : Type) where
  id : Nat

namespace Handle

variable {α : Type}

/- Handles are equal when they have the same name. -/
instance : DecidableEq (Handle α) :=
  fun h g =>
    if hId : h.id = g.id then
      .isTrue (by cases h; cases g; cases hId; rfl)
    else
      .isFalse (fun hEq => hId (congrArg Handle.id hEq))

end Handle

/- The shared aggregates, with the next free name. -/
structure Heap (α : Type) where
  cells : Std.ExtTreeMap Nat α := ∅
  next : Nat := 0

namespace Heap

variable {α : Type}

/- No aggregate has been named. -/
def empty : Heap α := {}

/- Replace the aggregate that a handle names. -/
def write (s : Heap α) (h : Handle α) (a : α) : Heap α :=
  { s with cells := s.cells.insert h.id a }

/- Name a new aggregate. -/
def alloc (s : Heap α) (a : α) : Handle α × Heap α :=
  (⟨s.next⟩,
    { cells := s.cells.insert s.next a
      next := s.next + 1 })

variable [Inhabited α]

/- The aggregate that a handle names. -/
def read (s : Heap α) (h : Handle α) : α :=
  s.cells.getD h.id default

/- Change the aggregate that a handle names. -/
def modify
    (s : Heap α)
    (h : Handle α)
    (f : α → α) : Heap α :=
  s.write h (f (s.read h))

/- Change the aggregate and answer from it. -/
def run
    {β : Type}
    (s : Heap α)
    (h : Handle α)
    (f : α → β × α) : β × Heap α :=
  let (b, a) := f (s.read h)
  (b, s.write h a)

/- Name a new aggregate equal to one that has a name. -/
def detach (s : Heap α) (h : Handle α) :
    Handle α × Heap α :=
  s.alloc (s.read h)

/- The debug form of a handle shows what it names. -/
def outlineOf
    [Outlined α]
    (s : Heap α)
    (h : Handle α) : Outline :=
  .wrapper "SharedAggregate" (outline (s.read h))

end Heap

/- A held handle leaves its changes in the heap. -/
instance Handle.holding
    {α δ : Type} [Inhabited α] [Aggregate α δ] :
    Holding (Handle α) (Heap α) δ where
  apply d h s := (h, s.modify h (Aggregate.apply d))
  settle h s := (h, s.modify h Aggregate.settle)

end OverlayCache

------------------------------------------------------------
-- Reading Written Heaps
------------------------------------------------------------

namespace OverlayCache

namespace Heap

variable {α : Type} [Inhabited α]

/- A handle reads what was written through its name. -/
theorem read_write
    (s : Heap α)
    (h g : Handle α)
    (a : α) :
    (s.write h a).read g = if g = h then a else s.read g := by
  cases h with
  | mk i =>
      cases g with
      | mk j =>
          by_cases hEq : j = i
          · subst hEq
            simp [write, read]
          · have hNe : ¬ i = j := fun h => hEq h.symm
            simp [write, read, Std.ExtTreeMap.getD_insert,
              hEq, hNe]

/- A new aggregate reads as it was given. -/
theorem read_alloc
    (s : Heap α)
    (a : α) :
    (s.alloc a).2.read (s.alloc a).1 = a := by
  simp [alloc, read]

end Heap

end OverlayCache
