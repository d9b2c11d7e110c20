import UmbraOS.Runs

namespace UmbraOS

structure ListNode (α : Type) where
  value : α
  prev : Option Nat
  next : Option Nat

structure DoublyLinkedList (α : Type) where
  nodes : CellStore (ListNode α)
  head : Option Nat
  size : Nat

variable {α : Type}

namespace DoublyLinkedList

def new : DoublyLinkedList α := ⟨CellStore.empty, none, 0⟩

def push (l : DoublyLinkedList α) (value : α) : Except Trap (DoublyLinkedList α) := do
  let node := l.nodes.next
  let nodes := l.nodes.alloc ⟨value, none, none⟩
  if l.head = none then
    return ⟨nodes, some node, l.size + 1⟩
  else
    let nodes := nodes.adjust node fun n => { n with next := l.head }
    let head ← nodes.read l.head
    -- the link set here is the one of the second old node, not of the old head
    let nodes ← match head.next with
      | none => pure nodes
      | some x => nodes.modify (some x) fun n => { n with prev := some node }
    return ⟨nodes, some node, l.size + 1⟩

/-- The body of `remove` once the node at `c` is found to hold the value. -/
def unlink (l : DoublyLinkedList α) (c : Nat) : Except Trap (DoublyLinkedList α) := do
  if l.head = some c then
    let head ← l.nodes.read l.head
    let nodes ← match head.next with
      | none => pure l.nodes
      | some x => l.nodes.modify (some x) fun n => { n with prev := none }
    let nodes ← nodes.free (some c)
    return ⟨nodes, head.next, l.size - 1⟩
  else
    let current ← l.nodes.read (some c)
    let nodes ← l.nodes.modify current.prev fun n => { n with next := current.next }
    let current ← nodes.read (some c)
    let nodes ← match current.next with
      | none => pure nodes
      | some x => nodes.modify (some x) fun n => { n with prev := current.prev }
    let nodes ← nodes.free (some c)
    return ⟨nodes, l.head, l.size - 1⟩

def removeLoop [DecidableEq α] (l : DoublyLinkedList α) (value : α) :
    Nat → Option Nat → Except Trap (DoublyLinkedList α)
  | _, none => .ok l
  | 0, some _ => .error .timeout
  | fuel + 1, some c => do
    let current ← l.nodes.read (some c)
    if current.value = value then l.unlink c else l.removeLoop value fuel current.next

/-- The walk visits each node at most once, so the number of nodes ever made bounds it. -/
def remove [DecidableEq α] (l : DoublyLinkedList α) (value : α) :
    Except Trap (DoublyLinkedList α) :=
  l.removeLoop value l.nodes.next l.head

inductive Op (α : Type)
  | push (value : α)
  | remove (value : α)

def step [DecidableEq α] (l : DoublyLinkedList α) : Op α → Except Trap (DoublyLinkedList α)
  | .push value => l.push value
  | .remove value => l.remove value

/-- The reference sequence: a push puts the value in front, a removal deletes the first
element equal to the value. -/
def Op.apply [DecidableEq α] (xs : List α) : Op α → List α
  | .push value => value :: xs
  | .remove value => xs.erase value

/-- The walk along `next` from `p` meets exactly the values `xs`, and the `prev` of each
node met, other than the first one of the list, is the node met before it. -/
def Linked (nodes : CellStore (ListNode α)) : Option Nat → Option Nat → List α → Prop
  | _, p, [] => p = none
  | before, p, x :: xs => ∃ a n, p = some a ∧ nodes.cell a = some n ∧ n.value = x ∧
      (before ≠ none → n.prev = before) ∧ Linked nodes (some a) n.next xs

/-- The list is the sequence `xs`: its walk, its back links and its `size`. -/
def Holds (l : DoublyLinkedList α) (xs : List α) : Prop :=
  Linked l.nodes none l.head xs ∧ l.size = xs.length

/-- Along the whole sequence of calls, no call faults and the list is the reference
sequence after each of them. -/
def ActsAsSequence [DecidableEq α] (ops : List (Op α)) : Prop :=
  ∀ done, done <+: ops → ∃ l, run step new done = .ok l ∧ l.Holds (done.foldl Op.apply [])

/-- Every push of the calls finds the reference sequence empty. -/
def PushesOntoEmpty [DecidableEq α] : List α → List (Op α) → Prop
  | _, [] => True
  | xs, .push value :: ops => xs = [] ∧ PushesOntoEmpty [value] ops
  | xs, .remove value :: ops => PushesOntoEmpty (xs.erase value) ops

end DoublyLinkedList

end UmbraOS
