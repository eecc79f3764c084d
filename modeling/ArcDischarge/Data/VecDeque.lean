import Mathlib.Data.List.Basic

/-!
# Double-ended queues with a capacity

A `VecDeque` as far as it is used as a queue: its elements, front first, and the capacity of its
buffer, which grows when an element is pushed to a full one.
-/

namespace ArcDischarge

structure VecDeque (α : Type*) where
  /-- The elements, the front first. -/
  items : List α
  capacity : ℕ
  deriving DecidableEq, Repr

namespace VecDeque

variable {α : Type*}

def withCapacity (n : ℕ) : VecDeque α := ⟨[], n⟩

def length (q : VecDeque α) : ℕ := q.items.length

/-- A full buffer is replaced by one of twice its size. -/
def pushBack (q : VecDeque α) (x : α) : VecDeque α :=
  ⟨q.items ++ [x], if q.length < q.capacity then q.capacity else max (2 * q.capacity) 4⟩

def popFront (q : VecDeque α) : Option (α × VecDeque α) :=
  match q.items with
  | [] => none
  | x :: rest => some (x, ⟨rest, q.capacity⟩)

variable {q q' : VecDeque α} {x : α}

theorem pushBack_of_lt (h : q.length < q.capacity) :
    q.pushBack x = ⟨q.items ++ [x], q.capacity⟩ := by
  rw [pushBack, if_pos h]

theorem popFront_eq_none : q.popFront = none ↔ q.items = [] := by
  rw [popFront]
  split
  · rename_i hitems
    exact iff_of_true rfl hitems
  · rename_i y rest hitems
    rw [hitems]
    simp

theorem of_popFront (h : q.popFront = some (x, q')) :
    q.items = x :: q'.items ∧ q'.capacity = q.capacity := by
  rw [popFront] at h
  split at h
  · cases h
  · rename_i hitems
    cases h
    exact ⟨hitems, rfl⟩

end VecDeque

end ArcDischarge
