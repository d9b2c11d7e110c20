import UmbraOS.KernelRegisters

namespace UmbraOS

namespace TaskList

def newNode (q : TaskList) (task : Nat) : Nat × TaskList :=
  (q.nodes.next, { q with nodes := q.nodes.alloc ⟨task, none, none⟩ })

/-- The branch of `add_task` before the new node becomes the front. -/
def linkNode (q : TaskList) (node : Nat) : Except Trap TaskList :=
  if q.front = none then return { q with current := some node }
  else do
    let nodes ← q.nodes.modify (some node) fun n => { n with next := q.front }
    let nodes ← nodes.modify q.front fun n => { n with prev := some node }
    return { q with nodes }

def setFront (q : TaskList) (node : Nat) : TaskList := { q with front := some node }

theorem addTask_statements (q : TaskList) (task : Nat) : q.addTask task =
    (do let linked ← (q.newNode task).2.linkNode (q.newNode task).1
        return linked.setFront (q.newNode task).1) := by
  unfold addTask linkNode newNode
  by_cases hempty : q.front = none
  · rw [if_pos hempty, if_pos hempty]
    rfl
  · rw [if_neg hempty, if_neg hempty]
    simp only
    cases (q.nodes.alloc ⟨task, none, none⟩).modify (some q.nodes.next)
      fun n => { n with next := q.front } with
    | error e => rfl
    | ok nodes =>
      simp only [Except.ok_bind]
      cases nodes.modify q.front fun n => { n with prev := some q.nodes.next } with
      | error e => rfl
      | ok nodes => rfl

end TaskList

namespace Scheduler

variable (hw : Platform)

/-- The second statement of `sleep`. -/
def setDeadline (s : Scheduler) (ms : Nat) : Except Trap Scheduler := do
  let wake := u64 (hw.tsc s.tscReads + u64 (hw.cyclesPerMs * ms))
  let tasks ← s.tasks.modify s.currentTask fun t => { t with tscSleep := wake }
  return { s with tasks, tscReads := s.tscReads + 1 }

theorem sleep_statements (fuel : Nat) (s : Scheduler) (ms : Nat) (regs : Registers) :
    s.sleep hw fuel ms regs =
      (do let s ← s.setStatus .sleeping
          let s ← s.setDeadline hw ms
          s.handler hw fuel regs) := by
  unfold sleep setDeadline
  cases s.setStatus .sleeping with
  | error e => rfl
  | ok s' =>
    simp only [Except.ok_bind]
    cases s'.tasks.modify s'.currentTask fun t =>
      { t with tscSleep := u64 (hw.tsc s'.tscReads + u64 (hw.cyclesPerMs * ms)) } with
    | error e => rfl
    | ok tasks => rfl

end Scheduler

namespace Kernel

/-- The kernel before the scheduler is initialized. -/
def blank : Kernel where
  sched := Scheduler.blank
  events _ := ⟨fun _ => ⟨0, 0#8, false⟩, 0, 0⟩
  futexes _ := DoublyLinkedList.new
  futexHandles := DoublyLinkedList.new
  tcb := 0#64
  loaded := none
  waiting _ := none

/-- `Task::create` -/
def create (k : Kernel) (new : NewTask) : Nat × Kernel :=
  let (task, sched) := k.sched.create new
  (task, { k with
    sched
    events := Function.update k.events task { k.events task with head := 0, tail := 0 }
    futexes := Function.update k.futexes task DoublyLinkedList.new
    waiting := Function.update k.waiting task none })

/-- Interrupts of the timer and of the devices come at any time. -/
def Event.isInterrupt : Event → Bool
  | .timer _ => true
  | .wakeIo _ => true
  | .wakeNet => true
  | _ => false

end Kernel

/-- The code that the CPU runs: the end of `_start`, before one of its statements and with what it
has created, or the code of a task. -/
inductive Code
  | createKernelTask
  | createIdleTask (kernelTask : Nat)
  | setCurrentTask (kernelTask : Nat)
  | newNode (kernelTask : Nat)
  | linkNode (node : Nat)
  | setFront (node : Nat)
  | hcf
  | task (t : Nat)

/-- Between the statement of `Scheduler::init` that sets `idle_task` and the one of `add_task` that
puts the first task into the queue. -/
def Code.halfInitialized : Code → Bool
  | .setCurrentTask _ => true
  | .newNode _ => true
  | .linkNode _ => true
  | .setFront _ => true
  | _ => false

/-- What happens next. `setStatus` and `setDeadline` are the statements of `sleep` and `await_io`
before they yield, after which the timer may interrupt a task of the kernel. -/
inductive CpuEvent
  | boot
  | event (e : Kernel.Event)
  | setStatus (status : Status)
  | setDeadline (ms : Nat)

structure Cpu where
  kernel : Kernel
  code : Code

namespace Cpu

variable (hw : Platform) (fuel : Nat) (kernelMain idle : NewTask)

def start : Cpu := ⟨Kernel.blank, .createKernelTask⟩

/-- The idle task and the boot code call nothing of the scheduler. -/
def calls (m : Cpu) : Bool :=
  match m.code with
  | .task t => m.kernel.sched.idleTask ≠ some t
  | _ => false

def withQueue (k : Kernel) (queue : TaskList) : Kernel := { k with sched := { k.sched with queue } }

/-- The next statement of the boot code, with `Scheduler::init` and `add_task` written out. -/
def bootStep (m : Cpu) : Except Trap Cpu :=
  match m.code with
  | .createKernelTask => do
    let (kernelTask, kernel) := m.kernel.create kernelMain
    return ⟨kernel, .createIdleTask kernelTask⟩
  | .createIdleTask kernelTask => do
    let (idleTask, kernel) := m.kernel.create idle
    return ⟨{ kernel with sched := { kernel.sched with idleTask := some idleTask } },
      .setCurrentTask kernelTask⟩
  | .setCurrentTask kernelTask =>
    return ⟨{ m.kernel with sched := { m.kernel.sched with currentTask := m.kernel.sched.idleTask } },
      .newNode kernelTask⟩
  | .newNode kernelTask => do
    let (node, queue) := m.kernel.sched.queue.newNode kernelTask
    return ⟨withQueue m.kernel queue, .linkNode node⟩
  | .linkNode node => do
    let queue ← m.kernel.sched.queue.linkNode node
    return ⟨withQueue m.kernel queue, .setFront node⟩
  | .setFront node => return ⟨withQueue m.kernel (m.kernel.sched.queue.setFront node), .hcf⟩
  | .hcf => return m
  | .task _ => return m

/-- The return from an interrupt in which `schedule` ran: it goes back to the interrupted code where
there was no idle task to switch to, and else to the task that was loaded. -/
def resumed (m : Cpu) (k : Kernel) : Cpu :=
  match k.sched.idleTask, k.sched.currentTask with
  | some _, some t => ⟨k, .task t⟩
  | _, _ => ⟨k, m.code⟩

def afterEvent (m : Cpu) (e : Kernel.Event) (k : Kernel) : Cpu :=
  if e.interrupt.isSome then m.resumed k else ⟨k, m.code⟩

/-- A call that the running code does not make changes nothing. -/
def step (m : Cpu) : CpuEvent → Except Trap Cpu
  | .boot => m.bootStep kernelMain idle
  | .event e =>
    if e.isInterrupt || m.calls then do
      let k ← m.kernel.step hw fuel e
      return m.afterEvent e k
    else return m
  | .setStatus status =>
    if m.calls && status ≠ .ready then do
      let sched ← m.kernel.sched.setStatus status
      return { m with kernel := { m.kernel with sched } }
    else return m
  | .setDeadline ms =>
    if m.calls then do
      let sched ← m.kernel.sched.setDeadline hw ms
      return { m with kernel := { m.kernel with sched } }
    else return m

/-- The registers with which `schedule` is called. -/
def scheduled (m : Cpu) : CpuEvent → Option Registers
  | .event e => if e.isInterrupt || m.calls then e.interrupt else none
  | _ => none

end Cpu

end UmbraOS
