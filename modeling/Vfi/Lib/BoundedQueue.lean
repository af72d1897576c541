import Mathlib.Data.List.Basic

/-!
# Bounded queues

First in, first out, with a capacity: a queue that holds its capacity takes
nothing more.
-/

structure BoundedQueue (α : Type*) (cap : Nat) where
  items : List α
  length_le : items.length ≤ cap

namespace BoundedQueue

variable {α : Type*} {cap : Nat} (q : BoundedQueue α cap)

/-- The queue refuses the item when it is full. -/
def put (a : α) : BoundedQueue α cap × Option α :=
  if h : q.items.length < cap then
    ({ items := q.items ++ [a], length_le := by rw [List.length_append]; exact h }, some a)
  else (q, none)

/-- The oldest item leaves the queue, if there is one. -/
def get : BoundedQueue α cap × Option α :=
  ({ items := q.items.tail, length_le := by have h := q.length_le; rw [List.length_tail]; omega },
    q.items.head?)

def isEmpty : Bool := q.items.isEmpty

variable {q} {a : α} {rest : List α}

theorem put_of_lt (h : q.items.length < cap) :
    (q.put a).1.items = q.items ++ [a] ∧ (q.put a).2 = some a := by
  simp [put, h]

theorem put_of_full (h : q.items.length = cap) : q.put a = (q, none) := by
  simp [put, h]

theorem get_nil (h : q.items = []) : q.get.1.items = [] ∧ q.get.2 = none := by
  simp [get, h]

theorem get_cons (h : q.items = a :: rest) : q.get.1.items = rest ∧ q.get.2 = some a := by
  simp [get, h]

end BoundedQueue
