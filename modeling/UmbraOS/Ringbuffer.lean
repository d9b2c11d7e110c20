import Mathlib.Data.List.Basic

namespace UmbraOS

/-- `Ringbuffer<T, Size>`. -/
structure Ringbuffer (α : Type) (size : Nat) where
  data : Nat → α
  head : Nat
  tail : Nat

namespace Ringbuffer

variable {α : Type} {size : Nat}

/-- A full buffer loses its oldest item. -/
def write (r : Ringbuffer α size) (item : α) : Ringbuffer α size where
  tail := if (r.head + 1) % size = r.tail then (r.tail + 1) % size else r.tail
  data i := if i = r.head then item else r.data i
  head := (r.head + 1) % size

def isEmpty (r : Ringbuffer α size) : Bool := r.head == r.tail

def read (r : Ringbuffer α size) : Option α × Ringbuffer α size :=
  if r.isEmpty then (none, r)
  else (some (r.data r.tail), { r with tail := (r.tail + 1) % size })

/-- The indices stay inside the array. -/
structure Ok (r : Ringbuffer α size) : Prop where
  head : r.head < size
  tail : r.tail < size

def length (r : Ringbuffer α size) : Nat := (r.head + size - r.tail) % size

/-- The items, oldest first. -/
def contents (r : Ringbuffer α size) : List α :=
  (List.range r.length).map fun i => r.data ((r.tail + i) % size)

theorem mod_cases {a n : Nat} (h : a < 2 * n) : a % n = if a < n then a else a - n := by
  split
  next hlt => exact Nat.mod_eq_of_lt hlt
  next hge => rw [Nat.mod_eq_sub_mod (by omega), Nat.mod_eq_of_lt (by omega)]

theorem succ_mod {a n : Nat} (h : a < n) : (a + 1) % n = if a + 1 = n then 0 else a + 1 := by
  split
  next he => rw [he, Nat.mod_self]
  next hne => exact Nat.mod_eq_of_lt (by omega)

theorem length_eq {r : Ringbuffer α size} (h : r.Ok) :
    r.length = if r.tail ≤ r.head then r.head - r.tail else r.head + size - r.tail := by
  have hh := h.head
  have ht := h.tail
  rw [length, mod_cases (by omega)]
  split <;> split <;> omega

theorem isEmpty_iff {r : Ringbuffer α size} (h : r.Ok) :
    r.isEmpty = true ↔ r.contents = [] := by
  have hh := h.head
  have ht := h.tail
  rw [isEmpty, beq_iff_eq, contents, List.map_eq_nil_iff, List.range_eq_nil, length_eq h]
  split <;> omega

theorem write_ok {r : Ringbuffer α size} (h : r.Ok) (item : α) : (r.write item).Ok := by
  have hpos : 0 < size := Nat.lt_of_le_of_lt (Nat.zero_le _) h.head
  refine ⟨Nat.mod_lt _ hpos, ?_⟩
  simp only [write]
  split
  · exact Nat.mod_lt _ hpos
  · exact h.tail

theorem read_ok {r : Ringbuffer α size} (h : r.Ok) : r.read.2.Ok := by
  rw [read]
  split
  · exact h
  · exact ⟨h.head, Nat.mod_lt _ (Nat.lt_of_le_of_lt (Nat.zero_le _) h.head)⟩

/-- A read takes the oldest item. -/
theorem read_contents {r : Ringbuffer α size} (h : r.Ok) {x : α} {xs : List α}
    (hc : r.contents = x :: xs) : r.read.1 = some x ∧ r.read.2.contents = xs := by
  have hne : ¬r.isEmpty = true := by
    rw [isEmpty_iff h, hc]
    exact List.cons_ne_nil x xs
  have hh := h.head
  have ht := h.tail
  have hlen := length_eq h
  have hok := read_ok h
  have hlen' := length_eq hok
  rw [read, if_neg hne] at hlen' hok ⊢
  rw [isEmpty, beq_iff_eq] at hne
  simp only at hlen' hok
  rw [succ_mod ht] at hlen' hok ⊢
  obtain ⟨n, hn⟩ : ∃ n, r.length = n + 1 := by
    refine ⟨r.length - 1, ?_⟩
    rw [hlen]
    split <;> omega
  have hrest : Ringbuffer.length (⟨r.data, r.head,
      if r.tail + 1 = size then 0 else r.tail + 1⟩ : Ringbuffer α size) = n := by
    rw [hlen']
    rw [hlen] at hn
    by_cases he : r.tail + 1 = size
    · rw [if_pos he]
      split at hn <;> split <;> omega
    · rw [if_neg he]
      split at hn <;> split <;> omega
  rw [contents, hn, List.range_succ_eq_map, List.map_cons, List.map_map] at hc
  obtain ⟨hx, hxs⟩ := List.cons.inj hc
  rw [Nat.add_zero, Nat.mod_eq_of_lt ht] at hx
  refine ⟨congrArg some hx, ?_⟩
  rw [contents, hrest, ← hxs]
  refine List.map_congr_left fun i hi => ?_
  have hi' := List.mem_range.mp hi
  simp only [Function.comp]
  congr 1
  split
  next he => rw [show r.tail + i.succ = i + size by omega, Nat.zero_add, Nat.add_mod_right]
  next => rw [show r.tail + i.succ = r.tail + 1 + i by omega]

/-- The slot behind `n` kept items is none of theirs. -/
theorem slot_ne {size t i n head : Nat} (ht : t < size) (hi : i < n) (hn : n < size)
    (he : (t + n) % size = head) : (t + i) % size ≠ head := by
  rw [mod_cases (by omega)] at he ⊢
  split at he <;> split <;> omega

theorem full_iff {r : Ringbuffer α size} (h : r.Ok) (hs : 1 < size) :
    (r.head + 1) % size = r.tail ↔ r.length + 1 = size := by
  have hh := h.head
  have ht := h.tail
  rw [succ_mod hh, length_eq h]
  split <;> split <;> omega

theorem write_contents_full {r : Ringbuffer α size} (h : r.Ok) (hs : 1 < size) (item : α)
    (hf : r.length + 1 = size) : (r.write item).contents = r.contents.tail ++ [item] := by
  have hh := h.head
  have ht := h.tail
  have hfull := (full_iff h hs).mpr hf
  have hhead : (r.tail + 1 + (size - 2)) % size = r.head := by
    rw [succ_mod hh] at hfull
    rw [mod_cases (by omega)]
    split at hfull <;> split <;> omega
  have htail : (r.write item).tail = (r.tail + 1) % size := if_pos hfull
  have hwl : (r.write item).length = size - 2 + 1 := by
    rw [length, htail]
    have hhd : (r.write item).head = r.tail := hfull
    rw [hhd, succ_mod ht]
    split
    next he => rw [mod_cases (by omega)]; split <;> omega
    next he => rw [mod_cases (by omega)]; split <;> omega
  have hlast : (r.write item).data (((r.write item).tail + (size - 2)) % size) = item := by
    rw [htail, Nat.mod_add_mod, hhead]
    exact if_pos rfl
  rw [contents, hwl, List.range_succ, List.map_append, List.map_singleton, hlast, contents,
    show r.length = size - 2 + 1 by omega, List.range_succ_eq_map, List.map_cons, List.tail_cons, List.map_map]
  congr 1
  refine List.map_congr_left fun i hi => ?_
  have hi' := List.mem_range.mp hi
  have hne : ((r.tail + 1) % size + i) % size ≠ r.head :=
    slot_ne (Nat.mod_lt _ (by omega)) hi' (by omega) (by rw [Nat.mod_add_mod]; exact hhead)
  rw [htail]
  simp only [Function.comp, write, if_neg hne]
  rw [Nat.mod_add_mod, show r.tail + i.succ = r.tail + 1 + i by omega]

theorem write_contents_space {r : Ringbuffer α size} (h : r.Ok) (hs : 1 < size) (item : α)
    (hf : r.length + 1 ≠ size) : (r.write item).contents = r.contents ++ [item] := by
  have hh := h.head
  have ht := h.tail
  have hlen := length_eq h
  have hlt : r.length < size := Nat.mod_lt _ (by omega)
  have hnf : ¬(r.head + 1) % size = r.tail := fun he => hf ((full_iff h hs).mp he)
  have hhead : (r.tail + r.length) % size = r.head := by
    rw [hlen, mod_cases (by split <;> omega)]
    split <;> split <;> omega
  have htail : (r.write item).tail = r.tail := if_neg hnf
  have hwl : (r.write item).length = r.length + 1 := by
    have hhd : (r.write item).head = (r.head + 1) % size := rfl
    rw [length, htail, hhd, hlen]
    rw [succ_mod hh] at hnf ⊢
    split at hnf
    next he => rw [if_pos he, mod_cases (by omega)]; split <;> split <;> omega
    next he => rw [if_neg he, mod_cases (by omega)]; split <;> split <;> omega
  have hlast : (r.write item).data (((r.write item).tail + r.length) % size) = item := by
    rw [htail, hhead]
    exact if_pos rfl
  rw [contents, hwl, List.range_succ, List.map_append, List.map_singleton, hlast, contents]
  congr 1
  refine List.map_congr_left fun i hi => ?_
  have hne := slot_ne ht (List.mem_range.mp hi) hlt hhead
  rw [htail]
  simp only [write, if_neg hne]

/-- A write appends its item, after dropping the oldest one of a full buffer. -/
theorem write_contents {r : Ringbuffer α size} (h : r.Ok) (hs : 1 < size) (item : α) :
    (r.write item).contents =
      (if r.length + 1 = size then r.contents.tail else r.contents) ++ [item] := by
  split
  next hf => exact write_contents_full h hs item hf
  next hf => exact write_contents_space h hs item hf

/-- A write always moves the head. -/
theorem write_ne {r : Ringbuffer α size} (hs : 1 < size) (item : α) : r.write item ≠ r := by
  intro he
  have hh : (r.head + 1) % size = r.head := congrArg head he
  have hlt : (r.head + 1) % size < size := Nat.mod_lt _ (by omega)
  rw [hh] at hlt
  rw [succ_mod hlt] at hh
  split at hh <;> omega

end Ringbuffer

end UmbraOS
