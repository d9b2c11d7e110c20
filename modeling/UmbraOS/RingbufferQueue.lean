import UmbraOS.BoundedQueue
import UmbraOS.Ringbuffer
import UmbraOS.Runs

namespace UmbraOS

namespace Ringbuffer

variable {α : Type} {capacity : Nat}

/-- The constructor leaves the array as `new` returns it. -/
def new (data : Nat → α) : Ringbuffer α (capacity + 1) := ⟨data, 0, 0⟩

def call {size : Nat} (r : Ringbuffer α size) : QueueCall α → QueueResult α × Ringbuffer α size
  | .write item => (.nothing, r.write item)
  | .read => (.element r.read.1, r.read.2)
  | .isEmpty => (.truth r.isEmpty, r)

/-- The ring holds the elements of the queue, in order, between its tail and its head. -/
structure Holds (r : Ringbuffer α (capacity + 1)) (q : BoundedQueue α capacity) : Prop where
  ok : r.Ok
  items : r.contents = q.items

variable {r : Ringbuffer α (capacity + 1)} {q : BoundedQueue α capacity}

theorem new_holds (data : Nat → α) : (new data : Ringbuffer α (capacity + 1)).Holds .empty := by
  have hok : (new data : Ringbuffer α (capacity + 1)).Ok := ⟨Nat.succ_pos _, Nat.succ_pos _⟩
  exact ⟨hok, (isEmpty_iff hok).mp rfl⟩

theorem length_contents {size : Nat} (r : Ringbuffer α size) : r.contents.length = r.length := by
  rw [contents, List.length_map, List.length_range]

theorem Holds.isEmpty (h : r.Holds q) : r.isEmpty = q.isEmpty := by
  have hiff := isEmpty_iff h.ok
  rw [h.items] at hiff
  unfold BoundedQueue.isEmpty
  rw [Bool.eq_iff_iff, hiff, List.isEmpty_iff]

theorem Holds.read (h : r.Holds q) : r.read.1 = q.read.1 ∧ r.read.2.Holds q.read.2 := by
  have hfirst : q.read.1 = q.items.head? := rfl
  have hrest : q.read.2.items = q.items.tail := rfl
  by_cases hnil : q.items = []
  · have hempty : r.isEmpty = true := (isEmpty_iff h.ok).mpr (h.items.trans hnil)
    have hread : r.read = (none, r) := if_pos hempty
    rw [hnil] at hfirst hrest
    rw [hread]
    exact ⟨hfirst.symm, h.ok, (h.items.trans hnil).trans hrest.symm⟩
  · obtain ⟨x, xs, hitems⟩ := List.exists_cons_of_ne_nil hnil
    obtain ⟨hx, hxs⟩ := read_contents h.ok (h.items.trans hitems)
    rw [hitems] at hfirst hrest
    exact ⟨hx.trans hfirst.symm, read_ok h.ok, hxs.trans hrest.symm⟩

/-- A ring of one slot is always empty. -/
theorem contents_of_single (r : Ringbuffer α (0 + 1)) : r.contents = [] := by
  have hlen : r.length = 0 := Nat.mod_one _
  rw [contents, hlen]
  rfl

theorem Holds.write (h : r.Holds q) (item : α) : (r.write item).Holds (q.write item) := by
  refine ⟨write_ok h.ok item, ?_⟩
  have hlen : r.length = q.items.length := by rw [← length_contents, h.items]
  cases capacity with
  | zero =>
    have hnone : q.items = [] := List.eq_nil_of_length_eq_zero (Nat.le_zero.mp q.bounded)
    have hfull : q.items.length = 0 := by rw [hnone]; rfl
    rw [BoundedQueue.write_items_of_full hfull, hnone, contents_of_single]
    rfl
  | succ capacity =>
    rw [write_contents h.ok (by omega), h.items, hlen]
    split
    next hfull =>
      have hne : q.items ≠ [] := by
        intro hnil
        rw [hnil] at hfull
        cases hfull
      rw [BoundedQueue.write_items_of_full (Nat.succ.inj hfull), List.tail_append_of_ne_nil hne]
    next hroom =>
      have hlt : q.items.length < capacity + 1 := by
        have hle := q.bounded
        omega
      rw [BoundedQueue.write_items_of_lt hlt]

/-- The ring refines the queue: a call returns the same, and goes on with the same elements. -/
theorem Holds.call (h : r.Holds q) (c : QueueCall α) :
    (r.call c).1 = (q.call c).1 ∧ (r.call c).2.Holds (q.call c).2 := by
  cases c with
  | write item => exact ⟨rfl, h.write item⟩
  | read =>
    obtain ⟨hx, hnext⟩ := h.read
    exact ⟨congrArg QueueResult.element hx, hnext⟩
  | isEmpty => exact ⟨congrArg QueueResult.truth h.isEmpty, h⟩

/-- A new ring of `capacity + 1` slots answers every sequence of calls as an empty queue of that capacity
does, which drops its oldest element when it is written while full. -/
theorem answers_queue (data : Nat → α) (calls : List (QueueCall α)) :
    answers Ringbuffer.call (new data : Ringbuffer α (capacity + 1)) calls =
      answers BoundedQueue.call (BoundedQueue.empty : BoundedQueue α capacity) calls :=
  answers_eq (fun _ _ c h => h.call c) (new_holds data) calls

/-- A ring of three slots keeps the last two of three elements. -/
example : answers Ringbuffer.call (new (fun _ => 0) : Ringbuffer Nat (2 + 1))
    [.write 1, .write 2, .write 3, .read, .read, .isEmpty, .read] =
    [.nothing, .nothing, .nothing, .element (some 2), .element (some 3), .truth true,
      .element none] := rfl

end Ringbuffer

end UmbraOS
