import UmbraOS.DoublyLinkedList

namespace UmbraOS

namespace DoublyLinkedList

variable {α : Type}

/-- The walk along `next` from a pointer comes to a node with the value. -/
inductive Visits (nodes : CellStore (ListNode α)) : Option Nat → α → Prop
  | here {a : Nat} {n : ListNode α} (h : nodes.cell a = some n) : Visits nodes (some a) n.value
  | later {a : Nat} {n : ListNode α} {value : α} (h : nodes.cell a = some n)
      (hv : Visits nodes n.next value) : Visits nodes (some a) value

/-- The list contains the value, whatever its back links are. -/
def Has (l : DoublyLinkedList α) (value : α) : Prop := Visits l.nodes l.head value

theorem not_has_new (value : α) : ¬(new : DoublyLinkedList α).Has value := by
  intro h
  cases h

theorem has_head {l : DoublyLinkedList α} {value : α}
    (h : (l.nodes.read l.head).map ListNode.value = .ok value) : l.Has value := by
  cases hread : l.nodes.read l.head with
  | error trap =>
    rw [hread] at h
    cases h
  | ok n =>
    rw [hread] at h
    cases h
    obtain ⟨a, ha, hcell⟩ := CellStore.read_eq_ok.mp hread
    unfold Has
    rw [ha]
    exact Visits.here hcell

/-- Every node of the second store is one of the first, and goes on like it or to `other`. -/
def LinksLike (nodes nodes' : CellStore (ListNode α)) (other : Option Nat) : Prop :=
  ∀ a n, nodes'.cell a = some n →
    ∃ m, nodes.cell a = some m ∧ m.value = n.value ∧ (n.next = m.next ∨ n.next = other)

theorem LinksLike.refl (nodes : CellStore (ListNode α)) (other : Option Nat) :
    LinksLike nodes nodes other := fun _ n h => ⟨n, h, rfl, Or.inl rfl⟩

theorem LinksLike.trans {nodes nodes' nodes'' : CellStore (ListNode α)} {other : Option Nat}
    (h : LinksLike nodes nodes' other) (h' : LinksLike nodes' nodes'' other) :
    LinksLike nodes nodes'' other := by
  intro a n hn
  obtain ⟨m, hm, hvalue, hnext⟩ := h' a n hn
  obtain ⟨k, hk, hvalue', hnext'⟩ := h a m hm
  refine ⟨k, hk, hvalue'.trans hvalue, ?_⟩
  rcases hnext with hnext | hnext
  · rw [hnext]
    exact hnext'
  · exact Or.inr hnext

theorem LinksLike.erase (nodes : CellStore (ListNode α)) (c : Nat) (other : Option Nat) :
    LinksLike nodes (nodes.erase c) other := by
  intro a n hn
  exact ⟨n, (CellStore.erase_cell_live hn).2, rfl, Or.inl rfl⟩

theorem LinksLike.modify {nodes nodes' : CellStore (ListNode α)} {p other : Option Nat}
    {f : ListNode α → ListNode α} (h : nodes.modify p f = .ok nodes')
    (hf : ∀ n, (f n).value = n.value ∧ ((f n).next = n.next ∨ (f n).next = other)) :
    LinksLike nodes nodes' other := by
  obtain ⟨c, v, -, -, rfl⟩ := CellStore.modify_eq_ok.mp h
  intro a n hn
  rcases CellStore.adjust_cell_cases hn with ⟨-, hn⟩ | ⟨rfl, m, hm, rfl⟩
  · exact ⟨n, hn, rfl, Or.inl rfl⟩
  · exact ⟨m, hm, (hf m).1.symm, (hf m).2⟩

theorem LinksLike.free {nodes nodes' : CellStore (ListNode α)} {c : Nat}
    (h : nodes.free (some c) = .ok nodes') (other : Option Nat) : LinksLike nodes nodes' other := by
  unfold CellStore.free at h
  split at h
  next => cases h
  next a hc =>
    split at h
    next => cases h
    next =>
      cases h
      exact LinksLike.erase nodes a other

theorem LinksLike.visits {nodes nodes' : CellStore (ListNode α)} {p other : Option Nat} {value : α}
    (h : LinksLike nodes nodes' other) (hv : Visits nodes' p value) :
    Visits nodes p value ∨ Visits nodes other value := by
  induction hv with
  | here hn =>
    obtain ⟨m, hm, hvalue, -⟩ := h _ _ hn
    rw [← hvalue]
    exact Or.inl (Visits.here hm)
  | later hn _ ih =>
    obtain ⟨m, hm, -, hnext⟩ := h _ _ hn
    rcases ih with hv | hv
    · rcases hnext with hnext | hnext
      · rw [hnext] at hv
        exact Or.inl (Visits.later hm hv)
      · rw [hnext] at hv
        exact Or.inr hv
    · exact Or.inr hv

/-- Setting a back link, if there is a node to set it in, changes no `next`. -/
theorem LinksLike.setPrev {β : Type} {nodes : CellStore (ListNode α)} {p prev : Option Nat}
    (other : Option Nat) {rest : CellStore (ListNode α) → Except Trap β} {r : β}
    (h : (match p with
      | none => pure nodes >>= rest
      | some x => nodes.modify (some x) (fun n => { n with prev := prev }) >>= rest) = .ok r) :
    ∃ nodes', LinksLike nodes nodes' other ∧ rest nodes' = .ok r := by
  cases p with
  | none => exact ⟨nodes, LinksLike.refl nodes other, h⟩
  | some x =>
    obtain ⟨nodes', hmodify, h⟩ := Except.bind_eq_ok.mp h
    exact ⟨nodes', LinksLike.modify hmodify fun n => ⟨rfl, Or.inl rfl⟩, h⟩

theorem push_has {l t : DoublyLinkedList α} {value v : α} (h : l.push value = .ok t)
    (hv : t.Has v) : v = value ∨ l.Has v := by
  rw [push] at h
  by_cases hempty : l.head = none
  · simp only [hempty, if_true] at h
    cases h
    cases hv with
    | here hn =>
      rw [CellStore.alloc_cell_self] at hn
      cases hn
      exact Or.inl rfl
    | later hn hv =>
      rw [CellStore.alloc_cell_self] at hn
      cases hn
      cases hv
  · simp only [hempty, if_false] at h
    obtain ⟨head, hhead, h⟩ := Except.bind_eq_ok.mp h
    obtain ⟨nodes, hlinks, h⟩ := LinksLike.setPrev none h
    cases h
    have hnew : ∀ p w, Visits ((l.nodes.alloc ⟨value, none, none⟩).adjust l.nodes.next
        fun n => { n with next := l.head }) p w →
        w = value ∨ Visits l.nodes p w ∨ l.Has w := by
      intro p w hp
      induction hp with
      | @here a n hn =>
        rw [CellStore.adjust_cell, CellStore.alloc_cell] at hn
        by_cases ha : a = l.nodes.next
        · rw [if_pos ha, if_pos ha] at hn
          cases hn
          exact Or.inl rfl
        · rw [if_neg ha, if_neg ha] at hn
          exact Or.inr (Or.inl (Visits.here hn))
      | @later a n value' hn _ ih =>
        rw [CellStore.adjust_cell, CellStore.alloc_cell] at hn
        by_cases ha : a = l.nodes.next
        · rw [if_pos ha, if_pos ha] at hn
          cases hn
          rcases ih with hsame | hv | hv
          · exact Or.inl hsame
          · exact Or.inr (Or.inr hv)
          · exact Or.inr (Or.inr hv)
        · rw [if_neg ha, if_neg ha] at hn
          rcases ih with hsame | hv | hv
          · exact Or.inl hsame
          · exact Or.inr (Or.inl (Visits.later hn hv))
          · exact Or.inr (Or.inr hv)
    rcases hlinks.visits hv with hv | hv
    · rcases hnew _ _ hv with hsame | hv | hv
      · exact Or.inl hsame
      · cases hv with
        | here hn =>
          rw [l.nodes.fresh _ (Nat.le_refl _)] at hn
          cases hn
        | later hn hv =>
          rw [l.nodes.fresh _ (Nat.le_refl _)] at hn
          cases hn
      · exact Or.inr hv
    · cases hv

theorem unlink_has {l t : DoublyLinkedList α} {c : Nat} {v : α} (h : l.unlink c = .ok t)
    (hv : t.Has v) : l.Has v ∨ Visits l.nodes (some c) v := by
  rw [unlink] at h
  by_cases hhead : l.head = some c
  · rw [if_pos hhead] at h
    obtain ⟨head, hread, h⟩ := Except.bind_eq_ok.mp h
    obtain ⟨nodes, hback, h⟩ := LinksLike.setPrev none h
    obtain ⟨nodes', hfree, h⟩ := Except.bind_eq_ok.mp h
    cases h
    obtain ⟨a, ha, hcell⟩ := CellStore.read_eq_ok.mp hread
    obtain rfl := Option.some.inj (hhead.symm.trans ha)
    have hlinks := hback.trans (LinksLike.free hfree none)
    rcases hlinks.visits hv with hv | hv
    · exact Or.inr (Visits.later hcell hv)
    · cases hv
  · rw [if_neg hhead] at h
    obtain ⟨current, hread, h⟩ := Except.bind_eq_ok.mp h
    obtain ⟨nodes, hmodify, h⟩ := Except.bind_eq_ok.mp h
    obtain ⟨current', hread', h⟩ := Except.bind_eq_ok.mp h
    obtain ⟨nodes', hback, h⟩ := LinksLike.setPrev current.next h
    obtain ⟨nodes'', hfree, h⟩ := Except.bind_eq_ok.mp h
    cases h
    have hcell := CellStore.read_some_ok.mp hread
    have hskip : LinksLike l.nodes nodes current.next :=
      LinksLike.modify hmodify fun n => ⟨rfl, Or.inr rfl⟩
    have hlinks := (hskip.trans hback).trans (LinksLike.free hfree _)
    rcases hlinks.visits hv with hv | hv
    · exact Or.inl hv
    · exact Or.inr (Visits.later hcell hv)

variable [DecidableEq α]

theorem removeLoop_has {l t : DoublyLinkedList α} {value v : α} {fuel : Nat} {p : Option Nat}
    (hp : ∀ w, Visits l.nodes p w → l.Has w) (h : l.removeLoop value fuel p = .ok t)
    (hv : t.Has v) : l.Has v := by
  induction fuel generalizing p with
  | zero =>
    cases p with
    | none =>
      cases h
      exact hv
    | some c => cases h
  | succ fuel ih =>
    cases p with
    | none =>
      cases h
      exact hv
    | some c =>
      rw [removeLoop] at h
      obtain ⟨current, hread, h⟩ := Except.bind_eq_ok.mp h
      have hcell := CellStore.read_some_ok.mp hread
      split at h
      next =>
        rcases unlink_has h hv with hv | hv
        · exact hv
        · exact hp v hv
      next => exact ih (fun w hw => hp w (Visits.later hcell hw)) h

/-- A removal brings no value into the list. -/
theorem remove_has {l t : DoublyLinkedList α} {value v : α} (h : l.remove value = .ok t)
    (hv : t.Has v) : l.Has v := removeLoop_has (fun _ hw => hw) h hv

end DoublyLinkedList

end UmbraOS
