import UmbraOS.Ringbuffer

namespace UmbraOS

namespace Ringbuffer

variable {α : Type} {size : Nat}

/-- What was taken from a ring and what is left in it came from what was written, in order and each
item once. -/
structure InOrder (r : Ringbuffer α size) (written taken : List α) : Prop where
  ok : r.Ok
  sublist : (taken ++ r.contents).Sublist written

/-- Nothing that was written was lost. -/
def Complete (r : Ringbuffer α size) (written taken : List α) : Prop := taken ++ r.contents = written

/-- A write would drop an item. -/
def Full (r : Ringbuffer α size) : Prop := r.length + 1 = size

instance (r : Ringbuffer α size) : Decidable r.Full := inferInstanceAs (Decidable (_ = _))

variable {r : Ringbuffer α size} {written taken : List α}

theorem InOrder.start (hs : 1 < size) (data : Nat → α) :
    (⟨data, 0, 0⟩ : Ringbuffer α size).InOrder [] [] ∧ (⟨data, 0, 0⟩ : Ringbuffer α size).Complete [] [] := by
  have hok : (⟨data, 0, 0⟩ : Ringbuffer α size).Ok := ⟨Nat.zero_lt_of_lt hs, Nat.zero_lt_of_lt hs⟩
  have hnone : (⟨data, 0, 0⟩ : Ringbuffer α size).contents = [] := (isEmpty_iff hok).mp rfl
  refine ⟨⟨hok, ?_⟩, ?_⟩
  · rw [hnone]
    exact List.Sublist.refl _
  · rw [Complete, hnone]
    rfl

theorem InOrder.write (h : r.InOrder written taken) (hs : 1 < size) (item : α) :
    (r.write item).InOrder (written ++ [item]) taken := by
  refine ⟨write_ok h.ok item, ?_⟩
  have hkept : (taken ++ (if r.length + 1 = size then r.contents.tail else r.contents)).Sublist
      (taken ++ r.contents) := by
    apply List.Sublist.append_left
    split
    next => exact List.tail_sublist _
    next => exact List.Sublist.refl _
  rw [write_contents h.ok hs, ← List.append_assoc]
  exact (hkept.trans h.sublist).append (List.Sublist.refl _)

theorem InOrder.read (h : r.InOrder written taken) {item : α} {rest : Ringbuffer α size}
    (hread : r.read = (some item, rest)) : rest.InOrder written (taken ++ [item]) ∧
      taken ++ [item] ++ rest.contents = taken ++ r.contents := by
  have hne : r.contents ≠ [] := by
    intro hnil
    have hempty : r.isEmpty = true := (isEmpty_iff h.ok).mpr hnil
    rw [Ringbuffer.read, if_pos hempty] at hread
    cases hread
  obtain ⟨x, xs, hc⟩ := List.exists_cons_of_ne_nil hne
  obtain ⟨hx, hxs⟩ := read_contents h.ok hc
  have hok := read_ok h.ok
  rw [hread] at hx hxs hok
  obtain rfl := Option.some.inj hx
  have hsame : taken ++ [item] ++ rest.contents = taken ++ r.contents := by
    rw [show rest.contents = xs from hxs, hc, List.append_assoc]
    rfl
  refine ⟨⟨hok, ?_⟩, hsame⟩
  rw [hsame]
  exact h.sublist

theorem read_none (h : r.Ok) {rest : Ringbuffer α size} (hread : r.read = (none, rest)) :
    rest = r ∧ r.contents = [] := by
  by_cases hempty : r.isEmpty = true
  · rw [Ringbuffer.read, if_pos hempty] at hread
    cases hread
    exact ⟨rfl, (isEmpty_iff h).mp hempty⟩
  · rw [Ringbuffer.read, if_neg hempty] at hread
    cases hread

/-- A ring loses nothing exactly as long as no item is written to it while it is full. -/
theorem complete_write_iff (h : r.InOrder written taken) (hcomplete : r.Complete written taken)
    (hs : 1 < size) (item : α) : (r.write item).Complete (written ++ [item]) taken ↔ ¬r.Full := by
  have hlen : r.contents.length = r.length := by
    rw [contents, List.length_map, List.length_range]
  unfold Complete Full at *
  rw [write_contents h.ok hs, ← hcomplete]
  split
  next hfull =>
    refine iff_of_false (fun heq => ?_) (fun hnot => hnot hfull)
    have hlengths := congrArg List.length heq
    simp only [List.length_append, List.length_tail, List.length_singleton] at hlengths
    omega
  next hroom => exact iff_of_true (List.append_assoc _ _ _).symm hroom

end Ringbuffer

/-- The part of a common history that belongs to one party. -/
def historyOf {κ α : Type} [DecidableEq κ] (xs : List (κ × α)) (n : κ) : List α :=
  (xs.filter fun p => p.1 = n).map Prod.snd

section HistoryOf

variable {κ α : Type} [DecidableEq κ] {xs ys : List (κ × α)} {n m : κ} {p : α}

theorem historyOf_append : historyOf (xs ++ ys) n = historyOf xs n ++ historyOf ys n := by
  rw [historyOf, List.filter_append, List.map_append]
  rfl

theorem historyOf_single : historyOf [(m, p)] n = if m = n then [p] else [] := by
  unfold historyOf
  by_cases h : m = n
  · rw [if_pos h, List.filter_cons_of_pos (by simpa using h)]
    rfl
  · rw [if_neg h, List.filter_cons_of_neg (by simpa using h)]
    rfl

theorem historyOf_snoc_self : historyOf (xs ++ [(n, p)]) n = historyOf xs n ++ [p] := by
  rw [historyOf_append, historyOf_single, if_pos rfl]

theorem historyOf_snoc_other (h : n ≠ m) : historyOf (xs ++ [(m, p)]) n = historyOf xs n := by
  rw [historyOf_append, historyOf_single, if_neg (Ne.symm h), List.append_nil]

theorem historyOf_none (h : ∀ p ∈ xs, p.1 ≠ n) : historyOf xs n = [] := by
  unfold historyOf
  rw [List.map_eq_nil_iff, List.filter_eq_nil_iff]
  intro p hp
  simpa only [decide_eq_true_eq] using h p hp

end HistoryOf

end UmbraOS
