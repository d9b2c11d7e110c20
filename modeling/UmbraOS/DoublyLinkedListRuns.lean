import UmbraOS.DoublyLinkedList

namespace UmbraOS

namespace DoublyLinkedList

variable {α : Type}

/-- The list has one node, and its links lead nowhere. -/
def Alone (l : DoublyLinkedList α) (x : α) : Prop :=
  ∃ a, l.head = some a ∧ l.nodes.cell a = some ⟨x, none, none⟩ ∧ l.size = 1

theorem holds_nil {l : DoublyLinkedList α} : l.Holds [] ↔ l.head = none ∧ l.size = 0 := by
  simp [Holds, Linked]

theorem Alone.holds {l : DoublyLinkedList α} {x : α} (h : l.Alone x) : l.Holds [x] := by
  obtain ⟨a, hh, hc, hs⟩ := h
  exact ⟨⟨a, _, hh, hc, rfl, fun hn => absurd rfl hn, rfl⟩, hs⟩

theorem new_holds : (new : DoublyLinkedList α).Holds [] := holds_nil.mpr ⟨rfl, rfl⟩

theorem push_onto_empty {l : DoublyLinkedList α} (h : l.Holds []) (value : α) :
    ∃ t, l.push value = .ok t ∧ t.Alone value := by
  obtain ⟨hh, hs⟩ := holds_nil.mp h
  refine ⟨⟨l.nodes.alloc ⟨value, none, none⟩, some l.nodes.next, l.size + 1⟩, ?_, ?_⟩
  · simp [push, hh]; rfl
  · exact ⟨l.nodes.next, rfl, CellStore.alloc_cell_self _ _, by simp [hs]⟩

/-- The old head keeps an empty back link, so the two nodes are not linked both ways. -/
theorem push_onto_alone {l : DoublyLinkedList α} {x : α} (h : l.Alone x) (value : α)
    {t : DoublyLinkedList α} (ht : l.push value = .ok t) : ¬t.Holds [value, x] := by
  obtain ⟨a, hh, hc, hs⟩ := h
  have hne : a ≠ l.nodes.next := Nat.ne_of_lt (CellStore.lt_next hc)
  have hold : ((l.nodes.alloc ⟨value, none, none⟩).adjust l.nodes.next
      fun n => { n with next := some a }).cell a = some ⟨x, none, none⟩ := by
    rw [CellStore.adjust_cell_ne _ _ hne, CellStore.alloc_cell_of_live _ hc]
  simp only [push, hh, reduceCtorEq, if_false, CellStore.read_live hold, Except.ok_bind] at ht
  cases ht
  rintro ⟨⟨b, n, hb, hn, _, _, c, m, hcn, hm, _, hback, _⟩, _⟩
  cases hb
  rw [CellStore.adjust_cell_self _ (CellStore.alloc_cell_self _ _)] at hn
  cases hn
  cases hcn
  rw [hold] at hm
  cases hm
  exact absurd (hback (by simp)) (by simp)

/-- The states a sequence of calls passes through while every push finds the list empty. -/
def Short (l : DoublyLinkedList α) : List α → Prop
  | [] => l.Holds []
  | [x] => l.Alone x
  | _ => False

theorem Short.holds {l : DoublyLinkedList α} {xs : List α} (h : l.Short xs) : l.Holds xs := by
  match xs, h with
  | [], h => exact h
  | [_], h => exact Alone.holds h

variable [DecidableEq α]

theorem remove_empty {l : DoublyLinkedList α} (h : l.Holds []) (value : α) :
    l.remove value = .ok l := by
  simp [remove, (holds_nil.mp h).1, removeLoop]

theorem remove_alone_self {l : DoublyLinkedList α} {x : α} (h : l.Alone x) :
    ∃ t, l.remove x = .ok t ∧ t.Holds [] := by
  obtain ⟨a, hh, hc, hs⟩ := h
  obtain ⟨k, hk⟩ : ∃ k, l.nodes.next = k + 1 := ⟨l.nodes.next - 1, by
    have := CellStore.lt_next hc
    omega⟩
  refine ⟨⟨l.nodes.erase a, none, l.size - 1⟩, ?_, holds_nil.mpr ⟨rfl, by simp [hs]⟩⟩
  simp only [remove, hk, hh, removeLoop, CellStore.read_live hc, Except.ok_bind, if_true, unlink]
  simp only [pure, Except.pure, Except.ok_bind, CellStore.free_live hc]

theorem remove_alone_ne {l : DoublyLinkedList α} {x value : α} (h : l.Alone x)
    (hne : x ≠ value) : l.remove value = .ok l := by
  obtain ⟨a, hh, hc, hs⟩ := h
  obtain ⟨k, hk⟩ : ∃ k, l.nodes.next = k + 1 := ⟨l.nodes.next - 1, by
    have := CellStore.lt_next hc
    omega⟩
  simp [remove, hk, hh, removeLoop, CellStore.read_live hc, hne]

theorem remove_short {l : DoublyLinkedList α} {xs : List α} (h : l.Short xs) (value : α) :
    ∃ t, l.remove value = .ok t ∧ t.Short (xs.erase value) := by
  match xs, h with
  | [], h => exact ⟨l, remove_empty h value, h⟩
  | [x], h =>
    by_cases hx : x = value
    · subst hx
      obtain ⟨t, ht, hn⟩ := remove_alone_self h
      exact ⟨t, ht, by simpa [Short] using hn⟩
    · refine ⟨l, remove_alone_ne h hx, ?_⟩
      simpa [List.erase_cons, hx] using h

def ActsFrom (l : DoublyLinkedList α) (xs : List α) (ops : List (Op α)) : Prop :=
  ∀ done, done <+: ops → ∃ t, run step l done = .ok t ∧ t.Holds (done.foldl Op.apply xs)

theorem actsFrom_nil {l : DoublyLinkedList α} {xs : List α} :
    ActsFrom l xs [] ↔ l.Holds xs := by
  simp [ActsFrom]

theorem actsFrom_cons {l : DoublyLinkedList α} {xs : List α} {op : Op α} {ops : List (Op α)} :
    ActsFrom l xs (op :: ops) ↔
      l.Holds xs ∧ ∃ t, l.step op = .ok t ∧ ActsFrom t (op.apply xs) ops := by
  constructor
  · intro h
    obtain ⟨l', hl', hh⟩ := h [] List.nil_prefix
    cases hl'
    obtain ⟨t, ht, _⟩ := h [op] (by simp)
    obtain ⟨u, hu, _⟩ := run_cons_ok.mp ht
    refine ⟨hh, u, hu, ?_⟩
    intro done hd
    obtain ⟨w, hw, hv⟩ := h (op :: done) (by simpa using hd)
    obtain ⟨u', hu', hw'⟩ := run_cons_ok.mp hw
    cases hu.symm.trans hu'
    exact ⟨w, hw', by simpa using hv⟩
  · rintro ⟨hh, t, ht, hrest⟩ done hd
    cases done with
    | nil => exact ⟨l, rfl, hh⟩
    | cons e es =>
      obtain ⟨he, hes⟩ := List.cons_prefix_cons.mp hd
      subst he
      obtain ⟨w, hw, hv⟩ := hrest es hes
      exact ⟨w, run_cons_ok.mpr ⟨t, ht, hw⟩, hv⟩

theorem actsFrom_iff {l : DoublyLinkedList α} {xs : List α} (h : l.Short xs)
    (ops : List (Op α)) : ActsFrom l xs ops ↔ PushesOntoEmpty xs ops := by
  induction ops generalizing l xs with
  | nil => exact iff_of_true (actsFrom_nil.mpr h.holds) trivial
  | cons op ops ih =>
    rw [actsFrom_cons]
    cases op with
    | remove value =>
      obtain ⟨t, ht, hs⟩ := remove_short h value
      constructor
      · rintro ⟨_, u, hu, hrest⟩
        cases ht.symm.trans hu
        exact (ih hs).mp hrest
      · intro hp
        exact ⟨h.holds, t, ht, (ih hs).mpr hp⟩
    | push value =>
      match xs, h with
      | [], h =>
        obtain ⟨t, ht, hs⟩ := push_onto_empty h value
        have hshort : t.Short [value] := hs
        constructor
        · rintro ⟨_, u, hu, hrest⟩
          cases ht.symm.trans hu
          exact ⟨rfl, (ih hshort).mp hrest⟩
        · rintro ⟨_, hp⟩
          exact ⟨h.holds, t, ht, (ih hshort).mpr hp⟩
      | [x], h =>
        constructor
        · rintro ⟨_, u, hu, hrest⟩
          obtain ⟨w, hw, hv⟩ := hrest [] List.nil_prefix
          cases hw
          exact absurd hv (push_onto_alone h value hu)
        · rintro ⟨hx, _⟩
          simp at hx

/-- The list is its reference sequence throughout exactly when no push finds an element. -/
theorem list_acts_as_sequence_iff (ops : List (Op α)) :
    ActsAsSequence ops ↔ PushesOntoEmpty [] ops :=
  actsFrom_iff (show Short new [] from new_holds) ops

/-- Removing the first of three pushed values loses the second one. -/
theorem list_loses_an_element :
    ¬ActsAsSequence [Op.push 1, .push 2, .push 3, .remove 1] := by
  intro h
  obtain ⟨l, hl, hh⟩ := h _ (List.prefix_refl _)
  cases hl
  obtain ⟨⟨a, n, ha, hn, _, _, b, m, hb, _⟩, _⟩ := hh
  cases ha
  cases hn
  cases hb

end DoublyLinkedList

end UmbraOS
