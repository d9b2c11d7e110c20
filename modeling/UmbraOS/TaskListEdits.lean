import UmbraOS.TaskList

namespace UmbraOS

namespace TaskList

theorem Holds.addr_lt {q : TaskList} {ns : List (Nat × Nat)} {c i a : Nat} (h : Holds q ns c)
    (hi : addr ns i = some a) : a < q.nodes.next := by
  obtain ⟨t, ht⟩ := addr_eq_some.mp hi
  obtain ⟨n, hn, _⟩ := h.node i a t ht
  exact CellStore.lt_next hn

theorem Holds.not_mem_addresses {q : TaskList} {ns : List (Nat × Nat)} {c : Nat}
    (h : Holds q ns c) : q.nodes.next ∉ ns.map Prod.fst := by
  intro hm
  obtain ⟨i, hi⟩ := List.getElem?_of_mem hm
  rw [List.getElem?_map] at hi
  have hlt := h.addr_lt hi
  omega

theorem addTask_empty {q : TaskList} {c : Nat} (h : Holds q [] c) (task : Nat) :
    ∃ q', q.addTask task = .ok q' ∧ Holds q' [(q.nodes.next, task)] 0 := by
  have hfront : q.front = none := h.front
  refine ⟨⟨q.nodes.alloc ⟨task, none, none⟩, some q.nodes.next, some q.nodes.next⟩, ?_, ?_⟩
  · unfold addTask
    rw [if_pos hfront]
    rfl
  · refine ⟨?_, by simp, rfl, rfl, Or.inr (by simp)⟩
    intro i a t ht
    have hi : i = 0 := by
      have := (List.getElem?_eq_some_iff.mp ht).1
      simp at this
      omega
    subst hi
    cases ht
    exact ⟨_, CellStore.alloc_cell_self _ _, rfl, rfl, fun h0 => absurd h0 (by omega)⟩

/-- A task is put in front; the cursor stays at its node. -/
theorem addTask_cons {q : TaskList} {ns : List (Nat × Nat)} {c : Nat} (h : Holds q ns c)
    (hne : ns ≠ []) (task : Nat) :
    ∃ q', q.addTask task = .ok q' ∧ Holds q' ((q.nodes.next, task) :: ns) (c + 1) := by
  have hc : c < ns.length := h.cursor.resolve_left hne
  have hlen : 0 < ns.length := by omega
  obtain ⟨f, u, hf⟩ : ∃ f u, ns[0]? = some (f, u) :=
    ⟨ns[0].1, ns[0].2, List.getElem?_eq_getElem hlen⟩
  have hfront : q.front = some f := h.front.trans (addr_of_getElem? hf)
  obtain ⟨nf, hnf, hnft, hnfn, _⟩ := h.node 0 f u hf
  have hlt : f < q.nodes.next := CellStore.lt_next hnf
  let nodes := q.nodes.alloc ⟨task, none, none⟩
  let linked := nodes.adjust q.nodes.next fun n => { n with next := some f }
  let final := linked.adjust f fun n => { n with prev := some q.nodes.next }
  have hnew : nodes.cell q.nodes.next = some ⟨task, none, none⟩ := CellStore.alloc_cell_self _ _
  have hlinked : ∀ b ≠ q.nodes.next, linked.cell b = q.nodes.cell b := by
    intro b hb
    rw [CellStore.adjust_cell_ne _ _ hb, CellStore.alloc_cell, if_neg hb]
  have hfin : linked.cell f = some nf := (hlinked f (by omega)).trans hnf
  refine ⟨⟨final, some q.nodes.next, q.current⟩, ?_, ?_, ?_, rfl, ?_, ?_⟩
  · unfold addTask
    rw [if_neg (by rw [hfront]; simp), CellStore.modify_live _ hnew, Except.ok_bind, hfront,
      CellStore.modify_live _ hfin]
    rfl
  · intro i a t ht
    cases i with
    | zero =>
      cases ht
      refine ⟨⟨task, none, some f⟩, ?_, rfl, (addr_of_getElem? hf).symm, by omega⟩
      rw [CellStore.adjust_cell_ne _ _ (show q.nodes.next ≠ f by omega),
        CellStore.adjust_cell_self _ hnew]
    | succ i =>
      have ht' : ns[i]? = some (a, t) := ht
      obtain ⟨n, hn, hnt, hnn, hnp⟩ := h.node i a t ht'
      have ha : a ≠ q.nodes.next := Nat.ne_of_lt (CellStore.lt_next hn)
      by_cases haf : a = f
      · subst haf
        have hi : i = 0 := addr_inj h.nodup (addr_of_getElem? ht') (addr_of_getElem? hf)
        subst hi
        exact ⟨_, CellStore.adjust_cell_self _ ((hlinked a ha).trans hn), hnt, hnn, fun _ => rfl⟩
      · refine ⟨n, ?_, hnt, hnn, fun _ => ?_⟩
        · rw [CellStore.adjust_cell_ne _ _ haf, hlinked a ha, hn]
        · have hi : 0 < i := by
            rcases Nat.eq_zero_or_pos i with rfl | hi
            · rw [hf] at ht'
              cases ht'
              exact absurd rfl haf
            · exact hi
          obtain ⟨k, rfl⟩ : ∃ k, i = k + 1 := ⟨i - 1, by omega⟩
          exact hnp hi
  · rw [List.map_cons, List.nodup_cons]
    exact ⟨h.not_mem_addresses, h.nodup⟩
  · exact h.current
  · refine Or.inr ?_
    rw [List.length_cons]
    omega

theorem addr_eraseIdx (ns : List (Nat × Nat)) (c i : Nat) :
    addr (ns.eraseIdx c) i = if i < c then addr ns i else addr ns (i + 1) := by
  unfold addr
  rw [List.getElem?_eraseIdx]
  split <;> rfl

/-- Where a node that stays was in the walk. -/
theorem eraseIdx_index {ns : List (Nat × Nat)} {c i j b : Nat}
    (hnodup : (ns.map Prod.fst).Nodup) (hi : addr (ns.eraseIdx c) i = some b)
    (hj : addr ns j = some b) : i < c ∧ i = j ∨ c ≤ i ∧ i + 1 = j := by
  rw [addr_eraseIdx] at hi
  split at hi
  next hlt => exact Or.inl ⟨hlt, addr_inj hnodup hi hj⟩
  next hge => exact Or.inr ⟨by omega, addr_inj hnodup hi hj⟩

/-- The queue once the node at the cursor is out of the walk but not deleted yet. -/
structure Unlinked (q q' : TaskList) (ns : List (Nat × Nat)) (c : Nat) : Prop where
  current : q'.current = q.current
  front : q'.front = addr (ns.eraseIdx c) 0
  removed : ∃ a n, addr ns c = some a ∧ q'.nodes.cell a = some n ∧ n.next = addr ns (c + 1)
  node : ∀ i a t, (ns.eraseIdx c)[i]? = some (a, t) → ∃ n, q'.nodes.cell a = some n ∧ n.task = t ∧
    n.next = addr (ns.eraseIdx c) (i + 1) ∧ (0 < i → n.prev = addr (ns.eraseIdx c) (i - 1))

theorem unlinkCurrent_front {q : TaskList} {ns : List (Nat × Nat)} (h : Holds q ns 0)
    (hne : ns ≠ []) : ∃ q', q.unlinkCurrent = .ok q' ∧ Unlinked q q' ns 0 := by
  obtain ⟨a, t, ht⟩ := h.entry hne
  obtain ⟨n, hn, _, hnn, _⟩ := h.node 0 a t ht
  have haddr := addr_of_getElem? ht
  have hcur : q.current = some a := h.current.trans haddr
  have hfront : q.front = some a := h.front.trans haddr
  refine ⟨{ q with front := n.next }, ?_, rfl, ?_, ⟨a, n, haddr, hn, hnn⟩, ?_⟩
  · unfold unlinkCurrent
    rw [hcur, CellStore.read_live hn, Except.ok_bind, if_pos hfront.symm]
    rfl
  · rw [addr_eraseIdx]
    exact hnn
  · intro i b u hu
    have hu' : ns[i + 1]? = some (b, u) := by
      rw [List.getElem?_eraseIdx] at hu
      exact hu
    obtain ⟨m, hm, hmt, hmn, hmp⟩ := h.node (i + 1) b u hu'
    refine ⟨m, hm, hmt, ?_, ?_⟩
    · rw [hmn, addr_eraseIdx, if_neg (by omega)]
    · intro hi
      rw [hmp (by omega), addr_eraseIdx, if_neg (by omega), Nat.sub_add_cancel hi,
        Nat.add_sub_cancel]

/-- What the walk reads once the node `p` before the cursor skips it. -/
theorem skip_walk {q : TaskList} {ns : List (Nat × Nat)} {c p v : Nat} (h : Holds q ns c)
    (hc : 0 < c) (hp : ns[c - 1]? = some (p, v)) {i b u : Nat}
    (hu : (ns.eraseIdx c)[i]? = some (b, u)) :
    ∃ m, (q.nodes.adjust p fun m => { m with next := addr ns (c + 1) }).cell b = some m ∧
      m.task = u ∧ m.next = addr (ns.eraseIdx c) (i + 1) ∧
      (0 < i → i ≠ c → m.prev = addr (ns.eraseIdx c) (i - 1)) := by
  rw [List.getElem?_eraseIdx] at hu
  by_cases hi : i < c
  · rw [if_pos hi] at hu
    obtain ⟨m, hm, hmt, hmn, hmp⟩ := h.node i b u hu
    have hmp' : 0 < i → i ≠ c → m.prev = addr (ns.eraseIdx c) (i - 1) := by
      intro h0 _
      rw [hmp h0, addr_eraseIdx, if_pos (by omega)]
    by_cases hb : b = p
    · subst hb
      have hic : i = c - 1 := addr_inj h.nodup (addr_of_getElem? hu) (addr_of_getElem? hp)
      refine ⟨_, CellStore.adjust_cell_self _ hm, hmt, ?_, hmp'⟩
      rw [addr_eraseIdx, if_neg (by omega), show i + 1 + 1 = c + 1 by omega]
    · refine ⟨m, (CellStore.adjust_cell_ne _ _ hb).trans hm, hmt, ?_, hmp'⟩
      have hic : i ≠ c - 1 := by
        rintro rfl
        rw [hp] at hu
        cases hu
        exact hb rfl
      rw [hmn, addr_eraseIdx, if_pos (by omega)]
  · rw [if_neg hi] at hu
    obtain ⟨m, hm, hmt, hmn, hmp⟩ := h.node (i + 1) b u hu
    have hb : b ≠ p := by
      rintro rfl
      have := addr_inj h.nodup (addr_of_getElem? hu) (addr_of_getElem? hp)
      omega
    refine ⟨m, (CellStore.adjust_cell_ne _ _ hb).trans hm, hmt, ?_, ?_⟩
    · rw [hmn, addr_eraseIdx, if_neg (by omega)]
    · intro h0 hic
      rw [hmp (by omega), addr_eraseIdx, if_neg (by omega), Nat.sub_add_cancel h0,
        Nat.add_sub_cancel]

/-- The successor of the node at the cursor is told the node before it. -/
theorem back_walk {q : TaskList} {linked : CellStore TaskNode} {ns : List (Nat × Nat)} {c s w : Nat}
    {prev : Option Nat} (h : Holds q ns c) (hc : 0 < c) (hw : ns[c + 1]? = some (s, w))
    (hprev : prev = addr ns (c - 1))
    (hwalk : ∀ i b u, (ns.eraseIdx c)[i]? = some (b, u) → ∃ m, linked.cell b = some m ∧
      m.task = u ∧ m.next = addr (ns.eraseIdx c) (i + 1) ∧
      (0 < i → i ≠ c → m.prev = addr (ns.eraseIdx c) (i - 1)))
    {i b u : Nat} (hu : (ns.eraseIdx c)[i]? = some (b, u)) :
    ∃ m, (linked.adjust s fun m => { m with prev }).cell b = some m ∧ m.task = u ∧
      m.next = addr (ns.eraseIdx c) (i + 1) ∧ (0 < i → m.prev = addr (ns.eraseIdx c) (i - 1)) := by
  obtain ⟨m, hm, hmt, hmn, hmp⟩ := hwalk i b u hu
  by_cases hb : b = s
  · subst hb
    refine ⟨_, CellStore.adjust_cell_self _ hm, hmt, hmn, fun h0 => ?_⟩
    have hic : i = c := by
      have := eraseIdx_index h.nodup (addr_of_getElem? hu) (addr_of_getElem? hw)
      omega
    subst hic
    rw [addr_eraseIdx, if_pos (by omega)]
    exact hprev
  · refine ⟨m, (CellStore.adjust_cell_ne _ _ hb).trans hm, hmt, hmn, fun h0 => hmp h0 ?_⟩
    rintro rfl
    rw [List.getElem?_eraseIdx, if_neg (by omega), hw] at hu
    cases hu
    exact hb rfl

theorem unlinkCurrent_inner {q : TaskList} {ns : List (Nat × Nat)} {c : Nat} (h : Holds q ns c)
    (hne : ns ≠ []) (hc : 0 < c) : ∃ q', q.unlinkCurrent = .ok q' ∧ Unlinked q q' ns c := by
  obtain ⟨a, t, ht⟩ := h.entry hne
  obtain ⟨n, hn, hnt, hnn, hnp⟩ := h.node c a t ht
  have haddr := addr_of_getElem? ht
  have hlen : c < ns.length := h.cursor.resolve_left hne
  have hcur : q.current = some a := h.current.trans haddr
  have hlast : c - 1 < ns.length := by omega
  obtain ⟨p, v, hp⟩ : ∃ p v, ns[c - 1]? = some (p, v) :=
    ⟨ns[c - 1].1, ns[c - 1].2, List.getElem?_eq_getElem hlast⟩
  obtain ⟨np, hnp', -⟩ := h.node (c - 1) p v hp
  have hprev : n.prev = some p := (hnp hc).trans (addr_of_getElem? hp)
  -- the nodes of the walk next to each other are different
  have happ : ∀ {b j}, addr ns j = some b → j ≠ c - 1 → b ≠ p := by
    rintro b j hb hj rfl
    exact hj (addr_inj h.nodup hb (addr_of_getElem? hp))
  have hfront : q.current ≠ q.front := by
    intro he
    rw [hcur, h.front] at he
    have := addr_inj h.nodup haddr he.symm
    omega
  obtain ⟨linked, hlinked⟩ : ∃ linked, q.nodes.adjust p (fun m => { m with next := n.next }) = linked :=
    ⟨_, rfl⟩
  have hother : ∀ b ≠ p, linked.cell b = q.nodes.cell b := by
    intro b hb
    rw [← hlinked]
    exact CellStore.adjust_cell_ne _ _ hb
  have hna : linked.cell a = some n := (hother a (happ haddr (by omega))).trans hn
  have hfront' : q.front = addr (ns.eraseIdx c) 0 := by
    rw [addr_eraseIdx, if_pos hc]
    exact h.front
  have hwalk : ∀ i b u, (ns.eraseIdx c)[i]? = some (b, u) → ∃ m, linked.cell b = some m ∧
      m.task = u ∧ m.next = addr (ns.eraseIdx c) (i + 1) ∧
      (0 < i → i ≠ c → m.prev = addr (ns.eraseIdx c) (i - 1)) := by
    intro i b u hu
    rw [← hlinked, hnn]
    exact skip_walk h hc hp hu
  have hstart : q.unlinkCurrent = (do
      let nodes ← if n.next = none then pure linked
        else linked.modify n.next fun m => { m with prev := n.prev }
      return { q with nodes }) := by
    unfold unlinkCurrent
    rw [hcur, CellStore.read_live hn, Except.ok_bind, ← hcur, if_neg hfront, hprev,
      CellStore.modify_live _ hnp', Except.ok_bind, hlinked, hcur, CellStore.read_live hna,
      Except.ok_bind, hprev]
  cases hs : addr ns (c + 1) with
  | none =>
    rw [hs] at hnn
    refine ⟨{ q with nodes := linked }, ?_, rfl, hfront', ⟨a, n, haddr, hna, by rw [hnn, hs]⟩, ?_⟩
    · rw [hstart, if_pos hnn]
      rfl
    · intro i b u hu
      obtain ⟨m, hm, hmt, hmn, hmp⟩ := hwalk i b u hu
      refine ⟨m, hm, hmt, hmn, fun h0 => hmp h0 ?_⟩
      rintro rfl
      rw [List.getElem?_eraseIdx, if_neg (by omega)] at hu
      rw [addr_of_getElem? hu] at hs
      cases hs
  | some s =>
    rw [hs] at hnn
    obtain ⟨w, hw⟩ := addr_eq_some.mp hs
    obtain ⟨ns', hns', -⟩ := h.node (c + 1) s w hw
    have hsa : a ≠ s := by
      rintro rfl
      have := addr_inj h.nodup haddr hs
      omega
    have hls : linked.cell s = some ns' := (hother s (happ hs (by omega))).trans hns'
    refine ⟨{ q with nodes := linked.adjust s fun m => { m with prev := n.prev } }, ?_, rfl, hfront',
      ⟨a, n, haddr, ?_, by rw [hnn, hs]⟩, fun i b u hu => back_walk h hc hw (hnp hc) hwalk hu⟩
    · rw [hstart, if_neg (by rw [hnn]; simp), hnn, CellStore.modify_live _ hls]
      rfl
    · rw [CellStore.adjust_cell_ne _ _ hsa, hna]

theorem removeCurrent_empty {q : TaskList} {c : Nat} (h : Holds q [] c) :
    q.removeCurrent = .ok q := by
  have hcur : q.current = none := h.current
  rw [removeCurrent, if_pos hcur]
  rfl

/-- The node at the cursor leaves the queue; the cursor goes to the node behind it, or to
the front. -/
theorem removeCurrent_holds {q : TaskList} {ns : List (Nat × Nat)} {c : Nat} (h : Holds q ns c)
    (hne : ns ≠ []) : ∃ q', q.removeCurrent = .ok q' ∧
      Holds q' (ns.eraseIdx c) (if c + 1 < ns.length then c else 0) := by
  have hlen : c < ns.length := h.cursor.resolve_left hne
  obtain ⟨q₁, hq₁, hu⟩ : ∃ q₁, q.unlinkCurrent = .ok q₁ ∧ Unlinked q q₁ ns c := by
    rcases Nat.eq_zero_or_pos c with rfl | hc
    · exact unlinkCurrent_front h hne
    · exact unlinkCurrent_inner h hne hc
  obtain ⟨a, n, haddr, hn, hnn⟩ := hu.removed
  have hcur : q.current = some a := h.current.trans haddr
  have hcur₁ : q₁.current = some a := hu.current.trans hcur
  refine ⟨⟨q₁.nodes.erase a, q₁.front, if n.next = none then q₁.front else n.next⟩, ?_, ?_, ?_,
    hu.front, ?_, ?_⟩
  · rw [removeCurrent, if_neg (by rw [hcur]; simp), hq₁, Except.ok_bind, hcur₁,
      CellStore.read_live hn, Except.ok_bind, CellStore.free_live hn]
    rfl
  · intro i b t ht
    obtain ⟨m, hm, hrest⟩ := hu.node i b t ht
    have hb : b ≠ a := by
      rintro rfl
      have := eraseIdx_index h.nodup (addr_of_getElem? ht) haddr
      omega
    exact ⟨m, (CellStore.erase_cell_ne _ hb).trans hm, hrest⟩
  · exact h.nodup.sublist ((List.eraseIdx_sublist ns c).map Prod.fst)
  · by_cases hl : c + 1 < ns.length
    · have hsome : n.next ≠ none := by
        rw [hnn, Ne, addr_eq_none]
        omega
      rw [if_neg hsome, if_pos hl, hnn, addr_eraseIdx, if_neg (by omega)]
    · have hnone : n.next = none := by
        rw [hnn, addr_eq_none]
        omega
      rw [if_pos hnone, if_neg hl]
      exact hu.front
  · have he : (ns.eraseIdx c).length = ns.length - 1 := List.length_eraseIdx_of_lt hlen
    by_cases hl : c + 1 < ns.length
    · rw [if_pos hl]
      exact Or.inr (by omega)
    · rw [if_neg hl]
      rcases Nat.eq_zero_or_pos (ns.eraseIdx c).length with hz | hp
      · exact Or.inl (List.eq_nil_of_length_eq_zero hz)
      · exact Or.inr hp

end TaskList

end UmbraOS
