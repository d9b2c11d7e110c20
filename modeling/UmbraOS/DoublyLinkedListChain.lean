import UmbraOS.DoublyLinkedListWalk

namespace UmbraOS

namespace DoublyLinkedList

variable {α : Type}

/-- The address at a position of a chain of nodes and their values. -/
def nodeAt (ns : List (Nat × α)) (i : Nat) : Option Nat := ns[i]?.map Prod.fst

/-- Where the back link of the node at position `i` may lead: nowhere, to a node that is gone, or to
one of the two nodes before it. -/
inductive Back (nodes : CellStore (ListNode α)) (ns : List (Nat × α)) (i : Nat) : Option Nat → Prop
  | null : Back nodes ns i none
  | gone {p : Nat} (made : p < nodes.next) (dead : nodes.cell p = none) : Back nodes ns i (some p)
  | near {p : Nat} (j : Nat) (before : j < i) (close : i ≤ j + 2) (stands : nodeAt ns j = some p) :
      Back nodes ns i (some p)

/-- The walk along `next` meets the nodes `ns`. Nothing better than `Back` holds of the back
links. -/
structure Chain (l : DoublyLinkedList α) (ns : List (Nat × α)) : Prop where
  head : l.head = nodeAt ns 0
  nodup : (ns.map Prod.fst).Nodup
  node : ∀ i a v, ns[i]? = some (a, v) → ∃ n, l.nodes.cell a = some n ∧ n.value = v ∧
    n.next = nodeAt ns (i + 1) ∧ Back l.nodes ns i n.prev

/-- The values that the walk along `next` from a pointer meets. -/
def Walks (nodes : CellStore (ListNode α)) : Option Nat → List α → Prop
  | p, [] => p = none
  | p, x :: xs => ∃ a n, p = some a ∧ nodes.cell a = some n ∧ n.value = x ∧ Walks nodes n.next xs

theorem new_chain : (new : DoublyLinkedList α).Chain [] :=
  ⟨rfl, List.nodup_nil, fun i a v h => by cases h⟩

theorem nodeAt_eq_some {ns : List (Nat × α)} {i a : Nat} :
    nodeAt ns i = some a ↔ ∃ v, ns[i]? = some (a, v) := by
  simp [nodeAt]

theorem nodeAt_of {ns : List (Nat × α)} {i a : Nat} {v : α} (h : ns[i]? = some (a, v)) :
    nodeAt ns i = some a := nodeAt_eq_some.mpr ⟨v, h⟩

section Chain

variable {l : DoublyLinkedList α} {ns : List (Nat × α)}

theorem Chain.index (h : l.Chain ns) {i j a : Nat} (hi : nodeAt ns i = some a)
    (hj : nodeAt ns j = some a) : i = j := by
  have hi' : (ns.map Prod.fst)[i]? = some a := by rw [List.getElem?_map]; exact hi
  have hj' : (ns.map Prod.fst)[j]? = some a := by rw [List.getElem?_map]; exact hj
  obtain ⟨hl, -⟩ := List.getElem?_eq_some_iff.mp hi'
  exact (List.getElem?_inj hl h.nodup).mp (hi'.trans hj'.symm)

theorem Chain.live (h : l.Chain ns) {i a : Nat} (hi : nodeAt ns i = some a) :
    ∃ n, l.nodes.cell a = some n := by
  obtain ⟨v, hv⟩ := nodeAt_eq_some.mp hi
  obtain ⟨n, hn, -⟩ := h.node i a v hv
  exact ⟨n, hn⟩

theorem Chain.lt_next (h : l.Chain ns) {i a : Nat} (hi : nodeAt ns i = some a) : a < l.nodes.next := by
  obtain ⟨n, hn⟩ := h.live hi
  exact CellStore.lt_next hn

theorem Chain.length_le (h : l.Chain ns) : ns.length ≤ l.nodes.next := by
  have hlive : ∀ a ∈ ns.map Prod.fst, ∃ n, l.nodes.cell a = some n := by
    intro a ha
    obtain ⟨i, hi⟩ := List.getElem?_of_mem ha
    rw [List.getElem?_map] at hi
    exact h.live hi
  have hle := CellStore.length_le_next h.nodup hlive
  rw [List.length_map] at hle
  exact hle

theorem Chain.walks_from (h : l.Chain ns) {i : Nat} {xs : List (Nat × α)} (hxs : ns.drop i = xs) :
    Walks l.nodes (nodeAt ns i) (xs.map Prod.snd) := by
  induction xs generalizing i with
  | nil =>
    show nodeAt ns i = none
    rw [nodeAt, List.getElem?_eq_none (List.drop_eq_nil_iff.mp hxs)]
    rfl
  | cons x xs ih =>
    obtain ⟨a, v⟩ := x
    have hi : ns[i]? = some (a, v) := by
      rw [← Nat.add_zero i, ← List.getElem?_drop, hxs]
      rfl
    obtain ⟨n, hn, hvalue, hnext, -⟩ := h.node i a v hi
    refine ⟨a, n, nodeAt_of hi, hn, hvalue, ?_⟩
    rw [hnext]
    apply ih
    rw [← List.drop_drop, hxs]
    rfl

theorem Chain.walks (h : l.Chain ns) : Walks l.nodes l.head (ns.map Prod.snd) := by
  rw [h.head]
  exact h.walks_from rfl

/-- Setting the back link of a live node, if there is a node to set it in. -/
theorem setPrev_live (nodes : CellStore (ListNode α)) (p prev : Option Nat) :
    (∀ x, p = some x → ∃ n, nodes.cell x = some n) → ∃ nodes' : CellStore (ListNode α),
      (∀ rest : CellStore (ListNode α) → Except Trap (DoublyLinkedList α), (match p with
        | none => pure nodes >>= rest
        | some x => nodes.modify (some x) (fun n => { n with prev := prev }) >>= rest) =
          rest nodes') ∧
      nodes'.next = nodes.next ∧
      ∀ a, nodes'.cell a =
        if p = some a then (nodes.cell a).map fun n => { n with prev := prev } else nodes.cell a := by
  intro hlive
  cases p with
  | none => exact ⟨nodes, fun _ => rfl, rfl, fun a => (if_neg (by simp)).symm⟩
  | some x =>
    obtain ⟨n, hn⟩ := hlive x rfl
    refine ⟨nodes.adjust x fun n => { n with prev := prev }, fun rest => ?_, rfl, fun a => ?_⟩
    · simp only [CellStore.modify_live _ hn, Except.ok_bind]
    · rw [CellStore.adjust_cell]
      by_cases ha : a = x
      · rw [if_pos ha, if_pos (by rw [ha])]
      · rw [if_neg ha, if_neg fun he => ha (Option.some.inj he).symm]

/-- What a push leaves of the nodes that were there: the second of them is linked back to the new
one. -/
structure Pushed (l t : DoublyLinkedList α) (ns : List (Nat × α)) (value : α) : Prop where
  head : t.head = some l.nodes.next
  next : t.nodes.next = l.nodes.next + 1
  fresh : t.nodes.cell l.nodes.next = some ⟨value, none, l.head⟩
  dead : ∀ p < l.nodes.next, l.nodes.cell p = none → t.nodes.cell p = none
  kept : ∀ i a v n, ns[i]? = some (a, v) → l.nodes.cell a = some n →
    t.nodes.cell a = some (if i = 1 then { n with prev := some l.nodes.next } else n)

theorem Chain.push_pushed (h : l.Chain ns) (value : α) :
    ∃ t, l.push value = .ok t ∧ Pushed l t ns value := by
  have hlt : ∀ {i a}, nodeAt ns i = some a → a ≠ l.nodes.next := fun hi => Nat.ne_of_lt (h.lt_next hi)
  unfold push
  cases hfirst : nodeAt ns 0 with
  | none =>
    have hnone : l.head = none := h.head.trans hfirst
    rw [if_pos hnone]
    refine ⟨_, rfl, rfl, rfl, ?_, fun p hp hdead => ?_, fun i a v n hi hn => ?_⟩
    · rw [hnone]
      exact CellStore.alloc_cell_self _ _
    · rw [CellStore.alloc_cell, if_neg (Nat.ne_of_lt hp)]
      exact hdead
    · rw [if_neg, CellStore.alloc_cell_of_live _ hn]
      intro hone
      have hempty : ns = [] := by simpa [nodeAt] using hfirst
      rw [hempty] at hi
      cases hi
  | some a =>
    obtain ⟨v, hv⟩ := nodeAt_eq_some.mp hfirst
    obtain ⟨n, hn, -, hnext, -⟩ := h.node 0 a v hv
    have hhead : l.head = some a := h.head.trans hfirst
    obtain ⟨nodes, hnodes⟩ : ∃ nodes, nodes = (l.nodes.alloc ⟨value, none, none⟩).adjust l.nodes.next
        fun n => { n with next := l.head } := ⟨_, rfl⟩
    have hold : ∀ p, p ≠ l.nodes.next → nodes.cell p = l.nodes.cell p := by
      intro p hp
      rw [hnodes, CellStore.adjust_cell_ne _ _ hp, CellStore.alloc_cell, if_neg hp]
    have hfresh : nodes.cell l.nodes.next = some ⟨value, none, l.head⟩ := by
      rw [hnodes]
      exact CellStore.adjust_cell_self _ (CellStore.alloc_cell_self _ _)
    have hread : nodes.read l.head = .ok n := by
      rw [hhead, CellStore.read_live ((hold a (hlt hfirst)).trans hn)]
    obtain ⟨nodes', hset, hcount, hcell⟩ := setPrev_live nodes n.next (some l.nodes.next) fun x hx => by
      have hsecond := hnext.symm.trans hx
      obtain ⟨m, hm⟩ := h.live hsecond
      exact ⟨m, (hold x (hlt hsecond)).trans hm⟩
    have hsecond : ∀ {i b}, nodeAt ns i = some b → (n.next = some b ↔ i = 1) := by
      intro i b hb
      rw [hnext]
      exact ⟨fun he => h.index hb he, fun he => by rw [← hb, he]⟩
    refine ⟨⟨nodes', some l.nodes.next, l.size + 1⟩, ?_, rfl, ?_, ?_, fun p hp hdead => ?_,
      fun i b w m hi hm => ?_⟩
    · rw [if_neg (by rw [hhead]; simp)]
      simp only [← hnodes, hread, Except.ok_bind]
      exact hset _
    · rw [hcount, hnodes]
      rfl
    · rw [hcell, if_neg, hfresh]
      exact fun he => hlt (hnext.symm.trans he) rfl
    · rw [hcell, hold p (Nat.ne_of_lt hp), hdead]
      exact ite_self none
    · rw [hcell, hold b (hlt (nodeAt_of hi)), hm]
      by_cases hone : i = 1
      · rw [if_pos ((hsecond (nodeAt_of hi)).mpr hone), if_pos hone]
        rfl
      · rw [if_neg fun he => hone ((hsecond (nodeAt_of hi)).mp he), if_neg hone]

theorem Back.push {t : DoublyLinkedList α} {value : α} (hp : Pushed l t ns value) {i : Nat} {p : Option Nat}
    (h : Back l.nodes ns i p) : Back t.nodes ((l.nodes.next, value) :: ns) (i + 1) p := by
  cases h with
  | null => exact Back.null
  | gone made dead => exact Back.gone (by rw [hp.next]; omega) (hp.dead _ made dead)
  | near j before close stands => exact Back.near (j + 1) (by omega) (by omega) stands

/-- A push puts the value in front. -/
theorem Chain.push (h : l.Chain ns) (value : α) :
    ∃ t, l.push value = .ok t ∧ t.Chain ((l.nodes.next, value) :: ns) := by
  obtain ⟨t, ht, hp⟩ := h.push_pushed value
  refine ⟨t, ht, hp.head, ?_, fun i a v hi => ?_⟩
  · refine List.nodup_cons.mpr ⟨fun hmem => ?_, h.nodup⟩
    obtain ⟨i, hi⟩ := List.getElem?_of_mem hmem
    rw [List.getElem?_map] at hi
    exact absurd (h.lt_next hi) (Nat.lt_irrefl _)
  · cases i with
    | zero =>
      cases hi
      exact ⟨_, hp.fresh, rfl, h.head, Back.null⟩
    | succ i =>
      obtain ⟨n, hn, hvalue, hnext, hback⟩ := h.node i a v hi
      have hkept := hp.kept i a v n hi hn
      refine ⟨_, hkept, ?_, ?_, ?_⟩
      · split <;> exact hvalue
      · split <;> exact hnext
      · by_cases hone : i = 1
        · rw [if_pos hone, hone]
          exact Back.near 0 (by omega) (by omega) rfl
        · rw [if_neg hone]
          exact hback.push hp

/-- The node at which a removal of the value stops. -/
inductive Finds (nodes : CellStore (ListNode α)) : Option Nat → α → Nat → Prop
  | here {c : Nat} {n : ListNode α} (h : nodes.cell c = some n) : Finds nodes (some c) n.value c
  | later {a c : Nat} {n : ListNode α} {value : α} (h : nodes.cell a = some n) (hne : n.value ≠ value)
      (hf : Finds nodes n.next value c) : Finds nodes (some a) value c

/-- The node that a removal of the value finds is the first one, or its back link leads to a node. -/
def Unlinks (l : DoublyLinkedList α) (value : α) : Prop :=
  ∀ c n, Finds l.nodes l.head value c → l.nodes.cell c = some n →
    l.head = some c ∨ ∃ p m, n.prev = some p ∧ l.nodes.cell p = some m

/-- The list after the node at `k` is freed and the node before `m`, or the head when there is none,
is linked to the one behind `k`. -/
structure Cut (l t : DoublyLinkedList α) (ns : List (Nat × α)) (m k : Nat) : Prop where
  head : t.head = if m = 0 then nodeAt ns (k + 1) else l.head
  next : t.nodes.next = l.nodes.next
  dead : ∀ p, l.nodes.cell p = none → t.nodes.cell p = none
  freed : ∀ c, nodeAt ns k = some c → t.nodes.cell c = none
  kept : ∀ i a v n, ns[i]? = some (a, v) → i ≠ k → l.nodes.cell a = some n →
    ∃ n', t.nodes.cell a = some n' ∧ n'.value = n.value ∧
      n'.next = (if i + 1 = m then nodeAt ns (k + 1) else n.next) ∧
      n'.prev = if i = k + 1 then (if m = 0 then none else nodeAt ns (m - 1)) else n.prev

theorem getElem?_cut {β : Type} (xs : List β) {m k : Nat} (hm : m ≤ k) (hk : k < xs.length) (i : Nat) :
    (xs.take m ++ xs.drop (k + 1))[i]? = xs[if i < m then i else i - m + (k + 1)]? := by
  have hlen : (xs.take m).length = m := by rw [List.length_take]; omega
  by_cases hi : i < m
  · rw [List.getElem?_append_left (by omega), List.getElem?_take_of_lt hi, if_pos hi]
  · rw [List.getElem?_append_right (by omega), hlen, List.getElem?_drop, if_neg hi, Nat.add_comm]

theorem nodeAt_cut {m k : Nat} (hm : m ≤ k) (hk : k < ns.length) (i : Nat) :
    nodeAt (ns.take m ++ ns.drop (k + 1)) i = nodeAt ns (if i < m then i else i - m + (k + 1)) := by
  rw [nodeAt, getElem?_cut ns hm hk, nodeAt]

theorem cut_sublist (ns : List (Nat × α)) {m k : Nat} (hm : m ≤ k) :
    List.Sublist (ns.take m ++ ns.drop (k + 1)) ns := by
  have hle : List.Sublist (ns.take m) (ns.take (k + 1)) :=
    (List.take_prefix_take_left (by omega)).sublist
  have happ := hle.append (List.Sublist.refl (ns.drop (k + 1)))
  rwa [List.take_append_drop] at happ

/-- A back link behind the cut, seen from the list that is left. -/
theorem Cut.back {t : DoublyLinkedList α} {m k : Nat} (ht : Cut l t ns m k) (h : l.Chain ns) (hm : m ≤ k)
    (hk : k < ns.length) {i : Nat} (hi : k + 1 < i) {p : Option Nat} (hb : Back l.nodes ns i p) :
    Back t.nodes (ns.take m ++ ns.drop (k + 1)) (i - (k + 1) + m) p := by
  cases hb with
  | null => exact Back.null
  | gone made dead => exact Back.gone (by rw [ht.next]; exact made) (ht.dead _ dead)
  | @near p j before close stands =>
    by_cases hj : j = k
    · rw [hj] at stands
      exact Back.gone (by rw [ht.next]; exact h.lt_next stands) (ht.freed p stands)
    · refine Back.near (j - (k + 1) + m) (by omega) (by omega) ?_
      rw [nodeAt_cut hm hk, if_neg (by omega)]
      rw [show j - (k + 1) + m - m + (k + 1) = j by omega]
      exact stands

/-- A back link in front of the cut. -/
theorem Cut.back_front {t : DoublyLinkedList α} {m k : Nat} (ht : Cut l t ns m k) (hm : m ≤ k)
    (hk : k < ns.length) {i : Nat} (hi : i < m) {p : Option Nat} (hb : Back l.nodes ns i p) :
    Back t.nodes (ns.take m ++ ns.drop (k + 1)) i p := by
  cases hb with
  | null => exact Back.null
  | gone made dead => exact Back.gone (by rw [ht.next]; exact made) (ht.dead _ dead)
  | near j before close stands =>
    refine Back.near j before close ?_
    rw [nodeAt_cut hm hk, if_pos (by omega)]
    exact stands

/-- Linking past one node or two leaves a chain. -/
theorem Cut.chain {t : DoublyLinkedList α} {m k : Nat} (ht : Cut l t ns m k) (h : l.Chain ns) (hm : m ≤ k)
    (hk : k < ns.length) : t.Chain (ns.take m ++ ns.drop (k + 1)) := by
  refine ⟨?_, h.nodup.sublist ((cut_sublist ns hm).map Prod.fst), fun i a v hi => ?_⟩
  · rw [ht.head, nodeAt_cut hm hk, h.head]
    by_cases hzero : m = 0
    · rw [if_pos hzero, if_neg (by omega), hzero, Nat.sub_zero, Nat.zero_add]
    · rw [if_neg hzero, if_pos (by omega)]
  · rw [getElem?_cut ns hm hk] at hi
    by_cases hlt : i < m
    · rw [if_pos hlt] at hi
      obtain ⟨n, hn, hvalue, hnext, hback⟩ := h.node i a v hi
      obtain ⟨n', hn', hvalue', hnext', hprev'⟩ := ht.kept i a v n hi (by omega) hn
      refine ⟨n', hn', hvalue'.trans hvalue, ?_, ?_⟩
      · rw [hnext', nodeAt_cut hm hk]
        by_cases hlast : i + 1 = m
        · rw [if_pos hlast, if_neg (by omega), hlast, Nat.sub_self, Nat.zero_add]
        · rw [if_neg hlast, if_pos (by omega), hnext]
      · rw [hprev', if_neg (by omega)]
        exact ht.back_front hm hk hlt hback
    · rw [if_neg hlt] at hi
      obtain ⟨n, hn, hvalue, hnext, hback⟩ := h.node _ a v hi
      obtain ⟨n', hn', hvalue', hnext', hprev'⟩ := ht.kept _ a v n hi (by omega) hn
      refine ⟨n', hn', hvalue'.trans hvalue, ?_, ?_⟩
      · rw [hnext', if_neg (by omega), hnext, nodeAt_cut hm hk, if_neg (by omega)]
        congr 1
        omega
      · rw [hprev']
        by_cases hfirst : i = m
        · rw [if_pos (by omega)]
          by_cases hzero : m = 0
          · rw [if_pos hzero]
            exact Back.null
          · rw [if_neg hzero]
            have hlen : m - 1 < ns.length := by omega
            obtain ⟨p, hp⟩ : ∃ p, nodeAt ns (m - 1) = some p :=
              ⟨ns[m - 1].1, by rw [nodeAt, List.getElem?_eq_getElem hlen]; rfl⟩
            rw [hp]
            refine Back.near (m - 1) (by omega) (by omega) ?_
            rw [nodeAt_cut hm hk, if_pos (by omega)]
            exact hp
        · rw [if_neg (by omega)]
          have hcut := ht.back h hm hk (by omega) hback
          rwa [show i - m + (k + 1) - (k + 1) + m = i by omega] at hcut

/-- What is left once the node at `k` is freed, the node before `m` is linked past it, and the one behind it
is linked back to that node. -/
theorem Chain.cut {t : DoublyLinkedList α} {nodes : CellStore (ListNode α)} {m k c : Nat} {next : Option Nat}
    (h : l.Chain ns) (hc : nodeAt ns k = some c) (hnext : next = nodeAt ns (k + 1))
    (hhead : t.head = if m = 0 then nodeAt ns (k + 1) else l.head) (hcount : t.nodes.next = l.nodes.next)
    (hlinked : ∀ i a v x, ns[i]? = some (a, v) → l.nodes.cell a = some x →
      nodes.cell a = some (if i + 1 = m then { x with next := next } else x))
    (hdead : ∀ p, l.nodes.cell p = none → nodes.cell p = none)
    (hcell : ∀ a, t.nodes.cell a = if a = c then none
      else if next = some a then (nodes.cell a).map fun x =>
        { x with prev := if m = 0 then none else nodeAt ns (m - 1) }
      else nodes.cell a) : Cut l t ns m k := by
  refine ⟨hhead, hcount, fun p hp => ?_, fun d hd => ?_, fun i a v x hi hne hx => ?_⟩
  · rw [hcell, hdead p hp]
    split
    next => rfl
    next => exact ite_self none
  · cases hc.symm.trans hd
    rw [hcell, if_pos rfl]
  · have hac : a ≠ c := by
      intro he
      rw [he] at hi
      exact hne (h.index (nodeAt_of hi) hc)
    have hbehind : next = some a ↔ i = k + 1 := by
      rw [hnext]
      exact ⟨fun he => h.index (nodeAt_of hi) he, fun he => by rw [← he]; exact nodeAt_of hi⟩
    rw [hcell, if_neg hac, hlinked i a v x hi hx, ← hnext]
    by_cases hlast : i = k + 1
    · rw [if_pos (hbehind.mpr hlast), if_pos hlast]
      refine ⟨_, rfl, ?_, ?_, rfl⟩
      · split <;> rfl
      · split <;> rfl
    · rw [if_neg fun he => hlast (hbehind.mp he), if_neg hlast]
      refine ⟨_, rfl, ?_, ?_, ?_⟩
      · split <;> rfl
      · split <;> rfl
      · split <;> rfl

/-- Unlinking the first node. -/
theorem Chain.unlink_head (h : l.Chain ns) {c : Nat} (hc : nodeAt ns 0 = some c) :
    ∃ t, l.unlink c = .ok t ∧ Cut l t ns 0 0 := by
  have hhead : l.head = some c := h.head.trans hc
  obtain ⟨v, hv⟩ := nodeAt_eq_some.mp hc
  obtain ⟨n, hn, -, hnext, -⟩ := h.node 0 c v hv
  have hread : l.nodes.read l.head = .ok n := by rw [hhead, CellStore.read_live hn]
  obtain ⟨nodes, hset, hcount, hcell⟩ := setPrev_live l.nodes n.next none
    fun x hx => h.live (hnext.symm.trans hx)
  have hcnext : n.next ≠ some c := by
    intro he
    have hindex := h.index (hnext.symm.trans he) hc
    omega
  have hlive : nodes.cell c = some n := by rw [hcell, if_neg hcnext, hn]
  have hunlink : l.unlink c = .ok ⟨nodes.erase c, n.next, l.size - 1⟩ := by
    rw [unlink, if_pos hhead, hread, Except.ok_bind]
    refine (hset _).trans ?_
    simp only [CellStore.free_live hlive, Except.ok_bind]
    rfl
  refine ⟨_, hunlink, h.cut hc hnext hnext hcount (fun i a v x _ hx => ?_) (fun p hp => hp) fun a => ?_⟩
  · rw [if_neg (Nat.succ_ne_zero i), hx]
  · rw [CellStore.erase_cell, hcell]
    rfl

/-- Unlinking a later node whose back link leads to the node at `j`. -/
theorem Chain.unlink_near (h : l.Chain ns) {c j k p : Nat} {n : ListNode α} (hc : nodeAt ns k = some c)
    (hn : l.nodes.cell c = some n) (hprev : n.prev = some p) (hp : nodeAt ns j = some p) (hj : j < k) :
    ∃ t, l.unlink c = .ok t ∧ Cut l t ns (j + 1) k := by
  have hhead : l.head ≠ some c := by
    intro he
    have hindex := h.index hc (h.head.symm.trans he)
    omega
  obtain ⟨v, hv⟩ := nodeAt_eq_some.mp hc
  obtain ⟨n₁, hn₁, -, hnext, -⟩ := h.node k c v hv
  obtain rfl := Option.some.inj (hn.symm.trans hn₁)
  obtain ⟨m, hm⟩ := h.live hp
  have hpc : c ≠ p := by
    intro he
    rw [he] at hc
    have hindex := h.index hc hp
    omega
  obtain ⟨nodes, hnodes⟩ : ∃ nodes, nodes = l.nodes.adjust p fun m => { m with next := n.next } :=
    ⟨_, rfl⟩
  have hmodify : l.nodes.modify n.prev (fun m => { m with next := n.next }) = .ok nodes := by
    rw [hprev, CellStore.modify_live _ hm, hnodes]
  have hcell : nodes.cell c = some n := by rw [hnodes, CellStore.adjust_cell_ne _ _ hpc, hn]
  have hlinked : ∀ i a v x, ns[i]? = some (a, v) → l.nodes.cell a = some x →
      nodes.cell a = some (if i + 1 = j + 1 then { x with next := n.next } else x) := by
    intro i a v x hi hx
    rw [hnodes, CellStore.adjust_cell, hx]
    have hstand : a = p ↔ i + 1 = j + 1 := by
      constructor
      · intro he
        rw [he] at hi
        rw [h.index (nodeAt_of hi) hp]
      · intro he
        rw [Nat.succ.inj he] at hi
        exact Option.some.inj ((nodeAt_of hi).symm.trans hp)
    by_cases he : a = p
    · rw [if_pos he, if_pos (hstand.mp he)]
      rfl
    · rw [if_neg he, if_neg fun hij => he (hstand.mpr hij)]
  obtain ⟨nodes', hset, hcount, hcell'⟩ := setPrev_live nodes n.next n.prev fun x hx => by
    obtain ⟨w, hw⟩ := nodeAt_eq_some.mp (hnext.symm.trans hx)
    obtain ⟨y, hy⟩ := h.live (nodeAt_of hw)
    exact ⟨_, hlinked _ _ w y hw hy⟩
  have hcnext : n.next ≠ some c := by
    intro he
    have hindex := h.index (hnext.symm.trans he) hc
    omega
  have hlive : nodes'.cell c = some n := by rw [hcell', if_neg hcnext, hcell]
  have hunlink : l.unlink c = .ok ⟨nodes'.erase c, l.head, l.size - 1⟩ := by
    rw [unlink, if_neg hhead, CellStore.read_live hn, Except.ok_bind, hmodify, Except.ok_bind,
      CellStore.read_live hcell, Except.ok_bind]
    refine (hset _).trans ?_
    simp only [CellStore.free_live hlive, Except.ok_bind]
    rfl
  refine ⟨_, hunlink, h.cut hc hnext (if_neg (Nat.succ_ne_zero j)).symm ?_ hlinked (fun q hq => ?_)
    fun a => ?_⟩
  · exact hcount.trans (by rw [hnodes]; rfl)
  · rw [hnodes, CellStore.adjust_cell, hq]
    exact ite_self none
  · have hback : (if j + 1 = 0 then none else nodeAt ns (j + 1 - 1)) = n.prev := by
      rw [if_neg (Nat.succ_ne_zero j), Nat.add_sub_cancel, hp, hprev]
    rw [CellStore.erase_cell, hcell', hback]

/-- What unlinking a node of the list does. -/
theorem Chain.unlink (h : l.Chain ns) {c k : Nat} {n : ListNode α} (hc : nodeAt ns k = some c)
    (hn : l.nodes.cell c = some n) :
    (∃ t ms, l.unlink c = .ok t ∧ t.Chain ms ∧ List.Sublist ms ns) ∧
        (l.head = some c ∨ ∃ p m, n.prev = some p ∧ l.nodes.cell p = some m) ∨
      (∃ trap, l.unlink c = .error trap) ∧
        ¬(l.head = some c ∨ ∃ p m, n.prev = some p ∧ l.nodes.cell p = some m) := by
  have hk : k < ns.length := by
    obtain ⟨v, hv⟩ := nodeAt_eq_some.mp hc
    exact (List.getElem?_eq_some_iff.mp hv).1
  by_cases hzero : k = 0
  · rw [hzero] at hc
    obtain ⟨t, ht, hcut⟩ := h.unlink_head hc
    have hlen : 0 < ns.length := by omega
    exact Or.inl ⟨⟨t, _, ht, hcut.chain h (Nat.le_refl _) hlen, cut_sublist ns (Nat.le_refl _)⟩,
      Or.inl (h.head.trans hc)⟩
  · have hhead : l.head ≠ some c := by
      intro he
      exact hzero (h.index hc (h.head.symm.trans he))
    obtain ⟨v, hv⟩ := nodeAt_eq_some.mp hc
    obtain ⟨n₁, hn₁, -, -, hback⟩ := h.node k c v hv
    obtain rfl := Option.some.inj (hn.symm.trans hn₁)
    have hfault : ∀ trap, (l.nodes.modify n.prev fun m => { m with next := n.next }) = .error trap →
        l.unlink c = .error trap := by
      intro trap htrap
      rw [DoublyLinkedList.unlink, if_neg hhead, CellStore.read_live hn, Except.ok_bind, htrap]
      rfl
    cases hp : n.prev with
    | none =>
      refine Or.inr ⟨⟨.nullDeref, ?_⟩, fun hnot => ?_⟩
      · exact hfault _ (by rw [hp]; rfl)
      · rcases hnot with he | ⟨p, m, he, -⟩
        · exact hhead he
        · cases he
    | some p =>
      rw [hp] at hback
      cases hback with
      | gone made dead =>
        refine Or.inr ⟨⟨.useAfterFree, ?_⟩, fun hnot => ?_⟩
        · refine hfault _ ?_
          rw [hp, CellStore.modify, dead]
        · rcases hnot with he | ⟨q, m, he, hm⟩
          · exact hhead he
          · cases he
            rw [dead] at hm
            cases hm
      | near j before close stands =>
        obtain ⟨t, ht, hcut⟩ := h.unlink_near hc hn hp stands before
        obtain ⟨m, hm⟩ := h.live stands
        exact Or.inl ⟨⟨t, _, ht, hcut.chain h (by omega) hk, cut_sublist ns (by omega)⟩,
          Or.inr ⟨p, m, rfl, hm⟩⟩

variable [DecidableEq α]

/-- Where the walk of a removal comes to. -/
theorem Chain.removeLoop (h : l.Chain ns) (value : α) (fuel i : Nat) (hf : ns.length ≤ i + fuel) :
    (l.removeLoop value fuel (nodeAt ns i) = .ok l ∧ ∀ c, ¬Finds l.nodes (nodeAt ns i) value c) ∨
      ∃ k c, nodeAt ns k = some c ∧ l.removeLoop value fuel (nodeAt ns i) = l.unlink c ∧
        ∀ c', Finds l.nodes (nodeAt ns i) value c' ↔ c' = c := by
  induction fuel generalizing i with
  | zero =>
    have hnone : nodeAt ns i = none := by
      rw [nodeAt, List.getElem?_eq_none (by omega)]
      rfl
    rw [hnone]
    exact Or.inl ⟨rfl, fun c hc => by cases hc⟩
  | succ fuel ih =>
    cases ha : nodeAt ns i with
    | none => exact Or.inl ⟨rfl, fun c hc => by cases hc⟩
    | some a =>
      obtain ⟨v, hv⟩ := nodeAt_eq_some.mp ha
      obtain ⟨n, hn, -, hnext, -⟩ := h.node i a v hv
      rw [DoublyLinkedList.removeLoop, CellStore.read_live hn, Except.ok_bind]
      by_cases hvalue : n.value = value
      · rw [if_pos hvalue]
        refine Or.inr ⟨i, a, ha, rfl, fun c => ⟨fun hf => ?_, fun hc => ?_⟩⟩
        · cases hf with
          | here _ => rfl
          | later hcell hne _ =>
            obtain rfl := Option.some.inj (hn.symm.trans hcell)
            exact absurd hvalue hne
        · rw [hc, ← hvalue]
          exact Finds.here hn
      · have hlater : ∀ c, Finds l.nodes (some a) value c ↔ Finds l.nodes (nodeAt ns (i + 1)) value c := by
          intro c
          constructor
          · intro hf
            cases hf with
            | here hcell =>
              obtain rfl := Option.some.inj (hn.symm.trans hcell)
              exact absurd rfl hvalue
            | later hcell _ hf =>
              obtain rfl := Option.some.inj (hn.symm.trans hcell)
              rwa [hnext] at hf
          · intro hf
            rw [← hnext] at hf
            exact Finds.later hn hvalue hf
        rw [if_neg hvalue, hnext]
        simp only [hlater]
        exact ih (i + 1) (by omega)

/-- A removal leaves some of the nodes, where the node it finds can be unlinked, and faults where
it cannot. -/
theorem Chain.remove (h : l.Chain ns) (value : α) :
    (∃ t ms, l.remove value = .ok t ∧ t.Chain ms ∧ List.Sublist ms ns) ∧ l.Unlinks value ∨
      (∃ trap, l.remove value = .error trap) ∧ ¬l.Unlinks value := by
  have hwalk := h.removeLoop value l.nodes.next 0 (by have := h.length_le; omega)
  rw [← h.head] at hwalk
  rcases hwalk with ⟨hl, hnone⟩ | ⟨k, c, hc, hl, hfinds⟩
  · exact Or.inl ⟨⟨l, ns, hl, h, List.Sublist.refl ns⟩, fun c n hc => absurd hc (hnone c)⟩
  · obtain ⟨n, hn⟩ := h.live hc
    have hiff : l.Unlinks value ↔
        (l.head = some c ∨ ∃ p m, n.prev = some p ∧ l.nodes.cell p = some m) := by
      constructor
      · exact fun hu => hu c n ((hfinds c).mpr rfl) hn
      · intro hu c' n' hc' hn'
        obtain rfl := (hfinds c').mp hc'
        obtain rfl := Option.some.inj (hn.symm.trans hn')
        exact hu
    rw [hiff, DoublyLinkedList.remove, hl]
    exact h.unlink hc hn

end Chain

end DoublyLinkedList

end UmbraOS
