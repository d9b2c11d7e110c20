import Mathlib.Data.List.Basic

namespace UmbraOS

/-- A queue, oldest element first, that never holds more than its capacity. -/
structure BoundedQueue (α : Type) (capacity : Nat) where
  items : List α
  bounded : items.length ≤ capacity

/-- The calls on a queue of elements. -/
inductive QueueCall (α : Type)
  | write (item : α)
  | read
  | isEmpty

/-- What a call returns: nothing, the element that was read if there was one, or a truth value. -/
inductive QueueResult (α : Type)
  | nothing
  | element (item : Option α)
  | truth (b : Bool)

namespace BoundedQueue

variable {α : Type} {capacity : Nat}

def empty : BoundedQueue α capacity := ⟨[], Nat.zero_le _⟩

/-- A full queue drops its oldest element, which is the new one where there is no room at all. -/
def write (q : BoundedQueue α capacity) (item : α) : BoundedQueue α capacity where
  items := (q.items ++ [item]).drop (q.items.length + 1 - capacity)
  bounded := by
    rw [List.length_drop, List.length_append, List.length_singleton]
    omega

def read (q : BoundedQueue α capacity) : Option α × BoundedQueue α capacity where
  fst := q.items.head?
  snd := ⟨q.items.tail, by
    have h := q.bounded
    rw [List.length_tail]
    omega⟩

def isEmpty (q : BoundedQueue α capacity) : Bool := q.items.isEmpty

def call (q : BoundedQueue α capacity) : QueueCall α → QueueResult α × BoundedQueue α capacity
  | .write item => (.nothing, q.write item)
  | .read => (.element q.read.1, q.read.2)
  | .isEmpty => (.truth q.isEmpty, q)

theorem write_items (q : BoundedQueue α capacity) (item : α) : (q.write item).items =
    (q.items ++ [item]).drop (q.items.length + 1 - capacity) := rfl

/-- Where there is room, nothing is dropped. -/
theorem write_items_of_lt {q : BoundedQueue α capacity} (h : q.items.length < capacity) (item : α) :
    (q.write item).items = q.items ++ [item] := by
  rw [write_items, show q.items.length + 1 - capacity = 0 by omega, List.drop_zero]

/-- A full queue drops one element. -/
theorem write_items_of_full {q : BoundedQueue α capacity} (h : q.items.length = capacity) (item : α) :
    (q.write item).items = (q.items ++ [item]).tail := by
  rw [write_items, h, Nat.add_sub_cancel_left, List.drop_one]

end BoundedQueue

end UmbraOS
