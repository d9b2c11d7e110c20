import UmbraOS.CyclicList
import UmbraOS.Runs
import UmbraOS.TaskListEdits
import Mathlib.Data.List.Perm.Subperm

namespace UmbraOS

namespace TaskList

inductive Op
  | addTask (task : Nat)
  | nextTask
  | removeCurrent

def step (q : TaskList) : Op → Except Trap TaskList
  | .addTask task => q.addTask task
  | .nextTask => q.nextTask.map Prod.snd
  | .removeCurrent => q.removeCurrent

/-- The cyclic list of nodes that a queue stands for, and the number of nodes ever made, which
is the address of the next one. -/
structure Ring where
  nodes : CyclicList (Nat × Nat)
  made : Nat

def Ring.empty : Ring := ⟨CyclicList.empty, 0⟩

def Op.apply (r : Ring) : Op → Ring
  | .addTask task => ⟨r.nodes.add (r.made, task), r.made + 1⟩
  | .nextTask => { r with nodes := r.nodes.next }
  | .removeCurrent => { r with nodes := r.nodes.remove }

/-- The walk along `next`; `fuel` bounds the nodes met. -/
def reachedFrom (q : TaskList) : Nat → Option Nat → Except Trap (List (Nat × Nat))
  | _, none => .ok []
  | 0, some _ => .error .timeout
  | fuel + 1, some node => do
    let n ← q.nodes.read (some node)
    let rest ← q.reachedFrom fuel n.next
    return (node, n.task) :: rest

/-- The nodes met from `front`, with their tasks. -/
def reached (q : TaskList) : Except Trap (List (Nat × Nat)) := q.reachedFrom q.nodes.next q.front

theorem Holds.reachedFrom {q : TaskList} {ns : List (Nat × Nat)} {c : Nat} (h : Holds q ns c)
    (fuel i : Nat) (hf : ns.length ≤ i + fuel) :
    q.reachedFrom fuel (addr ns i) = .ok (ns.drop i) := by
  induction fuel generalizing i with
  | zero =>
    have hnone : addr ns i = none := addr_eq_none.mpr (by omega)
    rw [hnone, List.drop_eq_nil_of_le (by omega)]
    rfl
  | succ fuel ih =>
    by_cases hi : i < ns.length
    · have ht : ns[i]? = some (ns[i].1, ns[i].2) := List.getElem?_eq_getElem hi
      obtain ⟨n, hn, hnt, hnext, _⟩ := h.node i _ _ ht
      have hrest := ih (i + 1) (by omega)
      rw [addr_of_getElem? ht, TaskList.reachedFrom, CellStore.read_live hn, Except.ok_bind, hnext,
        hrest, Except.ok_bind, hnt, List.drop_eq_getElem_cons hi]
      rfl
    · have hnone : addr ns i = none := addr_eq_none.mpr (by omega)
      rw [hnone, List.drop_eq_nil_of_le (by omega)]
      rfl

/-- The nodes have different addresses below the next one to be made. -/
theorem Holds.length_le {q : TaskList} {ns : List (Nat × Nat)} {c : Nat} (h : Holds q ns c) :
    ns.length ≤ q.nodes.next := by
  have hsub : ns.map Prod.fst ⊆ List.range q.nodes.next := by
    intro a ha
    obtain ⟨i, hi⟩ := List.getElem?_of_mem ha
    rw [List.getElem?_map] at hi
    exact List.mem_range.mpr (h.addr_lt hi)
  have hle := (List.subperm_of_subset h.nodup hsub).length_le
  rw [List.length_map, List.length_range] at hle
  exact hle

theorem Holds.reached {q : TaskList} {ns : List (Nat × Nat)} {c : Nat} (h : Holds q ns c) :
    q.reached = .ok ns := by
  have hlen := h.length_le
  unfold TaskList.reached
  rw [h.front]
  exact h.reachedFrom _ 0 (by omega)

/-- The queue is the cyclic list: its nodes, their links and the cursor. -/
structure Follows (q : TaskList) (r : Ring) : Prop where
  holds : q.Holds r.nodes.entries r.nodes.cursor
  made : q.nodes.next = r.made

theorem new_follows : Follows new Ring.empty := ⟨new_holds, rfl⟩

theorem Follows.current_eq_none_iff {q : TaskList} {r : Ring} (h : Follows q r) :
    q.current = none ↔ r.nodes.entries = [] := by
  rw [h.holds.current, ← CyclicList.current_eq_none_iff, addr, CyclicList.current,
    Option.map_eq_none_iff]

theorem modify_next {α : Type} {s s' : CellStore α} {p : Option Nat} {f : α → α}
    (h : s.modify p f = .ok s') : s'.next = s.next := by
  obtain ⟨a, v, -, -, rfl⟩ := CellStore.modify_eq_ok.mp h
  rfl

theorem addTask_made {q q' : TaskList} {task : Nat} (h : q.addTask task = .ok q') :
    q'.nodes.next = q.nodes.next + 1 := by
  unfold addTask at h
  split at h
  next =>
    cases h
    rfl
  next =>
    obtain ⟨n₁, h₁, h⟩ := Except.bind_eq_ok.mp h
    obtain ⟨n₂, h₂, h⟩ := Except.bind_eq_ok.mp h
    cases h
    rw [modify_next h₂, modify_next h₁]
    rfl

theorem unlinkCurrent_made {q q' : TaskList} (h : q.unlinkCurrent = .ok q') :
    q'.nodes.next = q.nodes.next := by
  obtain ⟨node, _, h⟩ := Except.bind_eq_ok.mp h
  split at h
  next =>
    cases h
    rfl
  next =>
    obtain ⟨n₁, h₁, h⟩ := Except.bind_eq_ok.mp h
    obtain ⟨node', _, h⟩ := Except.bind_eq_ok.mp h
    simp only at h
    split at h
    next =>
      cases h
      exact modify_next h₁
    next =>
      obtain ⟨n₂, h₂, h⟩ := Except.bind_eq_ok.mp h
      cases h
      rw [modify_next h₂, modify_next h₁]

theorem removeCurrent_made {q q' : TaskList} (h : q.removeCurrent = .ok q') :
    q'.nodes.next = q.nodes.next := by
  unfold removeCurrent at h
  split at h
  next =>
    cases h
    rfl
  next =>
    obtain ⟨q₁, h₁, h⟩ := Except.bind_eq_ok.mp h
    obtain ⟨node, _, h⟩ := Except.bind_eq_ok.mp h
    obtain ⟨nodes, hfree, h⟩ := Except.bind_eq_ok.mp h
    cases h
    rw [← unlinkCurrent_made h₁]
    cases hc : q₁.current with
    | none =>
      rw [hc] at hfree
      cases hfree
    | some a =>
      rw [hc] at hfree
      cases hcell : q₁.nodes.cell a with
      | none =>
        rw [CellStore.free_dead hcell] at hfree
        cases hfree
      | some n =>
        rw [CellStore.free_live hcell] at hfree
        cases hfree
        rfl

theorem Follows.addTask {q : TaskList} {r : Ring} (h : Follows q r) (task : Nat) :
    ∃ q', q.addTask task = .ok q' ∧ Follows q' (Op.apply r (.addTask task)) := by
  by_cases hne : r.nodes.entries = []
  · have hnil : q.Holds [] r.nodes.cursor := hne ▸ h.holds
    obtain ⟨q', hq, hholds⟩ := addTask_empty hnil task
    refine ⟨q', hq, ?_, ?_⟩
    · rw [h.made] at hholds
      rw [Op.apply, CyclicList.add_entries, CyclicList.add_cursor, if_pos hne, hne]
      exact hholds
    · rw [addTask_made hq, h.made]
      rfl
  · obtain ⟨q', hq, hholds⟩ := addTask_cons h.holds hne task
    refine ⟨q', hq, ?_, ?_⟩
    · rw [h.made] at hholds
      rw [Op.apply, CyclicList.add_entries, CyclicList.add_cursor, if_neg hne]
      exact hholds
    · rw [addTask_made hq, h.made]
      rfl

/-- `next_task` moves to the node behind the cursor, or to the front, and gives its task. -/
theorem Follows.nextTask {q : TaskList} {r : Ring} (h : Follows q r) (hne : r.nodes.entries ≠ []) :
    ∃ q', q.nextTask = .ok (r.nodes.next.current.map Prod.snd, q') ∧
      Follows q' (Op.apply r .nextTask) := by
  have hlt : r.nodes.next.cursor < r.nodes.entries.length :=
    CyclicList.cursor_lt (r := r.nodes.next) hne
  obtain ⟨a, t, ht⟩ : ∃ a t, r.nodes.entries[r.nodes.next.cursor]? = some (a, t) :=
    ⟨_, _, List.getElem?_eq_getElem hlt⟩
  have hcursor := CyclicList.next_cursor hne
  have ht' := ht
  rw [hcursor] at ht'
  obtain ⟨hnext, hholds⟩ := h.holds.nextTask ht'
  rw [← hcursor] at hholds
  refine ⟨_, ?_, hholds, h.made⟩
  rw [hnext, CyclicList.current, CyclicList.next_entries, ht, Option.map_some]

theorem Follows.removeCurrent {q : TaskList} {r : Ring} (h : Follows q r) :
    ∃ q', q.removeCurrent = .ok q' ∧ Follows q' (Op.apply r .removeCurrent) := by
  by_cases hne : r.nodes.entries = []
  · have hnil : q.Holds [] r.nodes.cursor := hne ▸ h.holds
    have hcursor : r.nodes.cursor = 0 := by
      rcases r.nodes.inside with hlt | ⟨_, h0⟩
      · rw [hne] at hlt
        cases hlt
      · exact h0
    refine ⟨q, removeCurrent_empty hnil, ?_, h.made⟩
    rw [Op.apply, CyclicList.remove_entries, CyclicList.remove_cursor, hne, if_neg (by simp)]
    rw [hcursor] at hnil
    exact hnil
  · obtain ⟨q', hq, hholds⟩ := removeCurrent_holds h.holds hne
    exact ⟨q', hq, hholds, (removeCurrent_made hq).trans h.made⟩

/-- `next_task` is called on a queue that has a task. -/
def Busy (r : Ring) (op : Op) : Prop := op = .nextTask → r.nodes.entries ≠ []

theorem Follows.step {q : TaskList} {r : Ring} (h : Follows q r) {op : Op} (hb : Busy r op) :
    ∃ q', q.step op = .ok q' ∧ Follows q' (op.apply r) := by
  cases op with
  | addTask task => exact h.addTask task
  | nextTask =>
    obtain ⟨q', hq, hf⟩ := h.nextTask (hb rfl)
    refine ⟨q', ?_, hf⟩
    rw [TaskList.step, hq]
    rfl
  | removeCurrent => exact h.removeCurrent

theorem Follows.run {q : TaskList} {r : Ring} (h : Follows q r) {ops : List Op}
    (hb : StepsMeet Op.apply Busy r ops) :
    ∃ q', run TaskList.step q ops = .ok q' ∧ Follows q' (ops.foldl Op.apply r) := by
  induction ops generalizing q r with
  | nil => exact ⟨q, rfl, h⟩
  | cons op ops ih =>
    obtain ⟨q₁, hq₁, hf₁⟩ := h.step hb.1
    obtain ⟨q', hq', hf'⟩ := ih hf₁ hb.2
    exact ⟨q', run_cons_ok.mpr ⟨q₁, hq₁, hq'⟩, hf'⟩

/-- What can be seen of a queue: the nodes met from `front` and their links, the cursor, and the
task that `next_task` would give. -/
structure Refines (q : TaskList) (r : Ring) : Prop where
  nodes : q.reached = .ok r.nodes.entries
  links : q.Holds r.nodes.entries r.nodes.cursor
  current : q.current = r.nodes.current.map Prod.fst
  isNull : q.current = none ↔ r.nodes.entries = []
  next : r.nodes.entries ≠ [] →
    ∃ q', q.nextTask = .ok (r.nodes.next.current.map Prod.snd, q')

theorem Follows.refines {q : TaskList} {r : Ring} (h : Follows q r) : Refines q r where
  nodes := h.holds.reached
  links := h.holds
  current := h.holds.current
  isNull := h.current_eq_none_iff
  next := by
    intro hne
    obtain ⟨q', hq, _⟩ := h.nextTask hne
    exact ⟨q', hq⟩

/-- Every sequence of calls goes through, without a null or a deleted node being followed, and
the queue is then the cyclic list that the calls make. -/
theorem run_refines {ops : List Op} (hb : StepsMeet Op.apply Busy Ring.empty ops) :
    ∃ q, run step new ops = .ok q ∧ Refines q (ops.foldl Op.apply Ring.empty) := by
  obtain ⟨q, hq, hf⟩ := new_follows.run hb
  exact ⟨q, hq, hf.refines⟩

/-- Two tasks are added, the cursor goes round, and the older task is taken out. -/
theorem two_tasks_refine : StepsMeet Op.apply Busy Ring.empty
      [.addTask 5, .addTask 6, .nextTask, .nextTask, .removeCurrent] ∧
    ∃ q, run step new [.addTask 5, .addTask 6, .nextTask, .nextTask, .removeCurrent] = .ok q ∧
      Refines q (List.foldl Op.apply Ring.empty
        [.addTask 5, .addTask 6, .nextTask, .nextTask, .removeCurrent]) := by
  have hbusy : StepsMeet Op.apply Busy Ring.empty
      [.addTask 5, .addTask 6, .nextTask, .nextTask, .removeCurrent] := by
    refine ⟨?_, ?_, ?_, ?_, ?_, trivial⟩
    · exact fun h => Op.noConfusion h
    · exact fun h => Op.noConfusion h
    · exact fun _ => List.cons_ne_nil _ _
    · exact fun _ => List.cons_ne_nil _ _
    · exact fun h => Op.noConfusion h
  exact ⟨hbusy, run_refines hbusy⟩

end TaskList

end UmbraOS
