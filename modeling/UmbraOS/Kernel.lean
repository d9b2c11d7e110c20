import UmbraOS.DoublyLinkedList
import UmbraOS.Ringbuffer
import UmbraOS.SchedulerRuns

namespace UmbraOS

structure KeyboardEvent where
  keyCode : Nat
  ascii : BitVec 8
  pressed : Bool

namespace DoublyLinkedList

variable {α : Type} [DecidableEq α]

def getLoop (l : DoublyLinkedList α) (value : α) : Nat → Option Nat → Except Trap (Option α)
  | _, none => .ok none
  | 0, some _ => .error .timeout
  | fuel + 1, some c => do
    let current ← l.nodes.read (some c)
    if current.value = value then return some value else l.getLoop value fuel current.next

def get (l : DoublyLinkedList α) (value : α) : Except Trap (Option α) :=
  l.getLoop value l.nodes.next l.head

def isEmpty (l : DoublyLinkedList α) : Bool := l.head = none

end DoublyLinkedList

/-- The values returned by `sys_futex_wait`. -/
inductive Return
  | eagain
  | zero
deriving DecidableEq

/-- The scheduler with what interrupts and system calls use besides: the `events` and `futexes`
of each task, the list of tasks that hold a futex, and the thread pointer of the CPU. Two fields
are not in the source: `loaded` is the register file that `schedule` resumed last, and `waiting`
is the futex pointer in whose wait loop the code of a task is. -/
structure Kernel where
  sched : Scheduler
  events : Nat → Ringbuffer KeyboardEvent 5
  futexes : Nat → DoublyLinkedList Nat
  futexHandles : DoublyLinkedList Nat
  tcb : BitVec 64
  loaded : Option Registers
  waiting : Nat → Option Nat

namespace Kernel

variable (hw : Platform) (fuel : Nat)

def init (idle : NewTask) : Kernel where
  sched := Scheduler.init idle
  events _ := ⟨fun _ => ⟨0, 0#8, false⟩, 0, 0⟩
  futexes _ := DoublyLinkedList.new
  futexHandles := DoublyLinkedList.new
  tcb := 0#64
  loaded := none
  waiting _ := none

/-- The return from an interrupt in which `schedule` ran. -/
def resume (k : Kernel) (result : Except Trap (Registers × Scheduler)) : Except Trap Kernel := do
  let (context, sched) ← result
  return { k with sched, loaded := some context }

/-- `Task::create` and `add_task`. The array of a new event buffer is left as it was. -/
def addTask (k : Kernel) (new : NewTask) : Except Trap Kernel := do
  let (task, sched) := k.sched.create new
  let sched ← sched.addTask task
  return { k with
    sched
    events := Function.update k.events task { k.events task with head := 0, tail := 0 }
    futexes := Function.update k.futexes task DoublyLinkedList.new
    waiting := Function.update k.waiting task none }

def awaitIo (k : Kernel) (regs : Registers) : Except Trap Kernel :=
  k.resume (k.sched.awaitIo hw fuel regs)

/-- `kill_and_yield` and the `schedule` it triggers as one step in which freed memory keeps what
it held: `schedule` finds the status of the deleted task there, and saves the registers in the
context that was deleted with it. The objects are gone after it. -/
def killAndYield (k : Kernel) (regs : Registers) : Except Trap Kernel :=
  if k.sched.queue.isEmpty then return k
  else
    match k.sched.currentTask with
    | none => .error .nullDeref
    | some t => do
      let task ← k.sched.tasks.read (some t)
      let queue ← k.sched.queue.removeCurrent
      let after ← k.resume ({ k.sched with queue }.handler hw fuel regs)
      return { after with sched := after.sched.deleted t task }

/-- The walk over the queue in `wake_io` and `wake_net`; `touch` is what is done to each task
before its status is looked at. -/
def wakeLoop (touch : Nat → Kernel → Kernel) : Nat → Kernel → Option Nat → Except Trap Kernel
  | _, k, none => .ok k
  | 0, _, some _ => .error .timeout
  | turns + 1, k, some node => do
    let current ← k.sched.queue.nodes.read (some node)
    let task ← k.sched.tasks.read (some current.task)
    let k := touch current.task k
    if task.status = .waitingIo then
      let tasks ← k.sched.tasks.modify (some current.task) fun t => { t with status := .running }
      wakeLoop touch turns { k with sched := { k.sched with tasks } } current.next
    else wakeLoop touch turns k current.next

def wakeIo (k : Kernel) (kbEvent : KeyboardEvent) : Except Trap Kernel :=
  wakeLoop (fun t k => { k with events := Function.update k.events t ((k.events t).write kbEvent) })
    k.sched.queue.nodes.next k k.sched.queue.front

def wakeNet (k : Kernel) : Except Trap Kernel :=
  wakeLoop (fun _ k => k) k.sched.queue.nodes.next k k.sched.queue.front

def wakeFutexLoop (pointer : Nat) : Nat → Kernel → Option Nat → Except Trap Kernel
  | _, k, none => .ok k
  | 0, _, some _ => .error .timeout
  | turns + 1, k, some node => do
    let current ← k.futexHandles.nodes.read (some node)
    let _ ← k.sched.tasks.read (some current.value)
    let held ← (k.futexes current.value).get pointer
    if held ≠ none then
      let tasks ← k.sched.tasks.modify (some current.value) fun t => { t with status := .running }
      wakeFutexLoop pointer turns { k with sched := { k.sched with tasks } } current.next
    else wakeFutexLoop pointer turns k current.next

def wakeFutexHandles (k : Kernel) (pointer : Nat) : Except Trap Kernel :=
  wakeFutexLoop pointer k.futexHandles.nodes.next k k.futexHandles.head

/-- A turn of the loop in `block_on`; the flag says that the loop is left. -/
def blockTurn (condition : Kernel → Bool) (k : Kernel) (regs : Registers) :
    Except Trap (Bool × Kernel) :=
  if condition k then return (true, k)
  else do
    let k ← k.awaitIo hw fuel regs
    return (false, k)

def blockOn (condition : Kernel → Bool) (k : Kernel) (regs : Registers) :
    Except Trap (Bool × Kernel) :=
  if condition k then return (true, k) else blockTurn hw fuel condition k regs

/-- The condition that `sys_futex_wait` blocks on. -/
def futexCondition (_ : Kernel) : Bool := false

/-- The rest of `sys_futex_wait` once the loop is left. -/
def futexLeave (k : Kernel) (task pointer : Nat) : Except Trap (Option Return × Kernel) := do
  let list ← (k.futexes task).remove pointer
  let futexHandles ← if list.isEmpty then k.futexHandles.remove task else pure k.futexHandles
  return (some .zero, { k with
    futexHandles
    futexes := Function.update k.futexes task list
    waiting := Function.update k.waiting task none })

/-- `value` is what the pointer points to. Without a returned value the task is in the loop. -/
def sysFutexWait (k : Kernel) (pointer : Nat) (value expected : BitVec 32) (regs : Registers) :
    Except Trap (Option Return × Kernel) :=
  if value ≠ expected then return (some .eagain, k)
  else
    match k.sched.currentTask with
    | none => .error .nullDeref
    | some task => do
      let futexHandles ← k.futexHandles.push task
      let _ ← k.sched.tasks.read (some task)
      let list ← (k.futexes task).push pointer
      let k := { k with
        futexHandles
        futexes := Function.update k.futexes task list
        waiting := Function.update k.waiting task (some pointer) }
      let (left, k) ← k.blockOn hw fuel futexCondition regs
      if left then k.futexLeave task pointer else return (none, k)

/-- What the current task does once it is resumed inside the loop of `sys_futex_wait`. -/
def futexTurn (k : Kernel) (task pointer : Nat) (regs : Registers) :
    Except Trap (Option Return × Kernel) := do
  let (left, k) ← k.blockTurn hw fuel futexCondition regs
  if left then k.futexLeave task pointer else return (none, k)

def sysFutexWake (k : Kernel) (pointer : Nat) : Except Trap Kernel := k.wakeFutexHandles pointer

def sysTcbSet (k : Kernel) (pointer : BitVec 64) : Kernel := { k with tcb := pointer }

/-- Interrupts, and calls of the current task with the registers at the interrupt they end in. -/
inductive Event
  | addTask (new : NewTask)
  | wakeIo (kbEvent : KeyboardEvent)
  | wakeNet
  | timer (regs : Registers)
  | yield (regs : Registers)
  | sleep (ms : Nat) (regs : Registers)
  | awaitIo (regs : Registers)
  | kill (regs : Registers)
  | futexWait (pointer : Nat) (value expected : BitVec 32) (regs : Registers)
  | futexTurn (task pointer : Nat) (regs : Registers)
  | futexWake (pointer : Nat)
  | tcbSet (pointer : BitVec 64)

def step (k : Kernel) : Event → Except Trap Kernel
  | .addTask new => k.addTask new
  | .wakeIo kbEvent => k.wakeIo kbEvent
  | .wakeNet => k.wakeNet
  | .timer regs => k.resume (k.sched.handler hw fuel regs)
  | .yield regs => k.resume (k.sched.handler hw fuel regs)
  | .sleep ms regs => k.resume (k.sched.sleep hw fuel ms regs)
  | .awaitIo regs => k.awaitIo hw fuel regs
  | .kill regs => k.killAndYield hw fuel regs
  | .futexWait pointer value expected regs =>
    (k.sysFutexWait hw fuel pointer value expected regs).map Prod.snd
  | .futexTurn task pointer regs => (k.futexTurn hw fuel task pointer regs).map Prod.snd
  | .futexWake pointer => k.sysFutexWake pointer
  | .tcbSet pointer => .ok (k.sysTcbSet pointer)

end Kernel

end UmbraOS
