import UmbraOS.CellStore
import Mathlib.Data.List.Basic

namespace UmbraOS

structure TaskNode where
  task : Nat
  prev : Option Nat
  next : Option Nat

/-- The scheduler's queue; a task is given by its address. -/
structure TaskList where
  nodes : CellStore TaskNode
  front : Option Nat
  current : Option Nat

namespace TaskList

def new : TaskList := ⟨CellStore.empty, none, none⟩

def getCurrent (q : TaskList) : Except Trap Nat := do
  let node ← q.nodes.read q.current
  return node.task

def nextTask (q : TaskList) : Except Trap (Option Nat × TaskList) := do
  let node ← q.nodes.read q.current
  let q := { q with current := if node.next = none then q.front else node.next }
  if q.current = none then return (none, q)
  else
    let node ← q.nodes.read q.current
    return (some node.task, q)

def addTask (q : TaskList) (task : Nat) : Except Trap TaskList := do
  let node := q.nodes.next
  let nodes := q.nodes.alloc ⟨task, none, none⟩
  if q.front = none then return ⟨nodes, some node, some node⟩
  else
    let nodes ← nodes.modify (some node) fun n => { n with next := q.front }
    let nodes ← nodes.modify q.front fun n => { n with prev := some node }
    return ⟨nodes, some node, q.current⟩

/-- The unlinking done by `remove_current` before the node is deleted. -/
def unlinkCurrent (q : TaskList) : Except Trap TaskList := do
  let node ← q.nodes.read q.current
  if q.current = q.front then return { q with front := node.next }
  else
    let nodes ← q.nodes.modify node.prev fun n => { n with next := node.next }
    let node ← nodes.read q.current
    let nodes ← if node.next = none then pure nodes
      else nodes.modify node.next fun n => { n with prev := node.prev }
    return { q with nodes }

def removeCurrent (q : TaskList) : Except Trap TaskList := do
  if q.current = none then return q
  else
    let q ← q.unlinkCurrent
    let node ← q.nodes.read q.current
    let nodes ← q.nodes.free q.current
    return ⟨nodes, q.front, if node.next = none then q.front else node.next⟩

def isEmpty (q : TaskList) : Bool := q.front = none

/-- The node address at a position of a list of nodes and their tasks. -/
def addr (ns : List (Nat × Nat)) (i : Nat) : Option Nat := ns[i]?.map Prod.fst

/-- The queue is the list of nodes `ns` in the order of `next`, with the cursor at position
`c`. The `prev` of the first node is never read, so nothing is said about it. -/
structure Holds (q : TaskList) (ns : List (Nat × Nat)) (c : Nat) : Prop where
  node : ∀ i a t, ns[i]? = some (a, t) → ∃ n, q.nodes.cell a = some n ∧ n.task = t ∧
    n.next = addr ns (i + 1) ∧ (0 < i → n.prev = addr ns (i - 1))
  nodup : (ns.map Prod.fst).Nodup
  front : q.front = addr ns 0
  current : q.current = addr ns c
  cursor : ns = [] ∨ c < ns.length

theorem new_holds : Holds new [] 0 where
  node := by
    intro i a t h
    simp at h
  nodup := List.nodup_nil
  front := rfl
  current := rfl
  cursor := Or.inl rfl

theorem addr_of_getElem? {ns : List (Nat × Nat)} {i a t : Nat} (h : ns[i]? = some (a, t)) :
    addr ns i = some a := by
  rw [addr, h]
  rfl

theorem addr_eq_some {ns : List (Nat × Nat)} {i a : Nat} :
    addr ns i = some a ↔ ∃ t, ns[i]? = some (a, t) := by
  simp [addr]

theorem addr_eq_none {ns : List (Nat × Nat)} {i : Nat} : addr ns i = none ↔ ns.length ≤ i := by
  simp [addr]

theorem addr_inj {ns : List (Nat × Nat)} (hd : (ns.map Prod.fst).Nodup) {i j a : Nat}
    (hi : addr ns i = some a) (hj : addr ns j = some a) : i = j := by
  have hi' : (ns.map Prod.fst)[i]? = some a := by rw [List.getElem?_map]; exact hi
  have hj' : (ns.map Prod.fst)[j]? = some a := by rw [List.getElem?_map]; exact hj
  obtain ⟨hl, _⟩ := List.getElem?_eq_some_iff.mp hi'
  exact (List.getElem?_inj hl hd).mp (hi'.trans hj'.symm)

theorem Holds.isEmpty_eq {q : TaskList} {ns : List (Nat × Nat)} {c : Nat} (h : Holds q ns c) :
    q.isEmpty = decide (ns = []) := by
  unfold isEmpty
  rw [h.front]
  cases ns <;> simp [addr]

theorem Holds.entry {q : TaskList} {ns : List (Nat × Nat)} {c : Nat} (h : Holds q ns c)
    (hne : ns ≠ []) : ∃ a t, ns[c]? = some (a, t) := by
  have hc : c < ns.length := h.cursor.resolve_left hne
  exact ⟨ns[c].1, ns[c].2, List.getElem?_eq_getElem hc⟩

theorem Holds.getCurrent {q : TaskList} {ns : List (Nat × Nat)} {c a t : Nat} (h : Holds q ns c)
    (ht : ns[c]? = some (a, t)) : q.getCurrent = .ok t := by
  obtain ⟨n, hn, hnt, _⟩ := h.node c a t ht
  have hcur : q.current = some a := h.current.trans (addr_of_getElem? ht)
  rw [TaskList.getCurrent, hcur, CellStore.read_live hn, Except.ok_bind, hnt]
  rfl

/-- The cursor moves on by one position, and from the last position to the first one. -/
theorem Holds.nextTask {q : TaskList} {ns : List (Nat × Nat)} {c a t : Nat} (h : Holds q ns c)
    (ht : ns[(c + 1) % ns.length]? = some (a, t)) :
    q.nextTask = .ok (some t, { q with current := some a }) ∧
      Holds { q with current := some a } ns ((c + 1) % ns.length) := by
  have hne : ns ≠ [] := by
    rintro rfl
    simp at ht
  have hc : c < ns.length := h.cursor.resolve_left hne
  obtain ⟨b, u, hb⟩ := h.entry hne
  obtain ⟨n, hn, _, hnext, _⟩ := h.node c b u hb
  obtain ⟨n', hn', hnt', _⟩ := h.node _ a t ht
  have hcur : q.current = some b := h.current.trans (addr_of_getElem? hb)
  have hmove : (if n.next = none then q.front else n.next) = some a := by
    rw [hnext, h.front, ← addr_of_getElem? ht]
    by_cases hl : c + 1 < ns.length
    · rw [if_neg (by rw [addr_eq_none]; omega), Nat.mod_eq_of_lt hl]
    · rw [if_pos (by rw [addr_eq_none]; omega), show c + 1 = ns.length by omega, Nat.mod_self]
  refine ⟨?_, h.node, h.nodup, h.front, (addr_of_getElem? ht).symm, Or.inr ?_⟩
  · rw [TaskList.nextTask, hcur, CellStore.read_live hn, Except.ok_bind]
    simp only [hmove, reduceCtorEq, if_false, CellStore.read_live hn', Except.ok_bind, hnt']
    rfl
  · exact Nat.mod_lt _ (by omega)

end TaskList

end UmbraOS
