import UmbraOS.Runs
import UmbraOS.TaskListEdits
import UmbraOS.Vmm

namespace UmbraOS

/-- The register frame of an interrupt. -/
structure Registers where
  r15 : BitVec 64
  r14 : BitVec 64
  r13 : BitVec 64
  r12 : BitVec 64
  r11 : BitVec 64
  r10 : BitVec 64
  r9 : BitVec 64
  r8 : BitVec 64
  rbp : BitVec 64
  rdi : BitVec 64
  rsi : BitVec 64
  rdx : BitVec 64
  rcx : BitVec 64
  rbx : BitVec 64
  rax : BitVec 64
  vectNum : BitVec 64
  errCode : BitVec 64
  iretRip : BitVec 64
  iretCs : BitVec 64
  iretFlags : BitVec 64
  iretRsp : BitVec 64
  iretSs : BitVec 64

inductive Status
  | ready
  | running
  | sleeping
  | waitingIo
deriving DecidableEq

/-- The fields of a task that the scheduler and the destructor use. -/
structure Task where
  status : Status
  addressSpace : Nat
  context : Nat
  tscSleep : Nat

/-- The results of `__rdtsc` in the order of the calls, and the constants the scheduler's
callees read. -/
structure Platform where
  tsc : Nat → Nat
  cyclesPerMs : Nat
  hhdm : Nat

structure Scheduler where
  tasks : CellStore Task
  contexts : CellStore Registers
  spaces : CellStore AddressSpace
  currentTask : Option Nat
  idleTask : Option Nat
  queue : TaskList
  cr3 : Nat
  realTime : Nat
  tscReads : Nat

/-- What `Task::create` makes a task from. `tscSleep` is left as the memory held it. -/
structure NewTask where
  context : Registers
  space : AddressSpace
  tscSleep : Nat

namespace Scheduler

variable (hw : Platform)

def create (s : Scheduler) (new : NewTask) : Nat × Scheduler :=
  (s.tasks.next, { s with
    tasks := s.tasks.alloc ⟨.ready, s.spaces.next, s.contexts.next, new.tscSleep⟩
    contexts := s.contexts.alloc new.context
    spaces := s.spaces.alloc new.space })

/-- The scheduler before `init`. -/
def blank : Scheduler :=
  ⟨CellStore.empty, CellStore.empty, CellStore.empty, none, none, TaskList.new, 0, 0, 0⟩

def init (idle : NewTask) : Scheduler :=
  let (task, s) := blank.create idle
  { s with idleTask := some task, currentTask := some task }

/-- The first step of `schedule`: the interrupted registers are saved in the current task. -/
def saveContext (s : Scheduler) (context : Registers) : Except Trap Scheduler :=
  if s.queue.isEmpty then return { s with currentTask := s.idleTask }
  else do
    let task ← s.tasks.read s.currentTask
    if task.status ≠ .ready then
      let contexts ← s.contexts.modify (some task.context) fun _ => context
      return { s with contexts }
    else return s

/-- The step to the next task of the queue before the selection loop. -/
def advance (s : Scheduler) : Except Trap Scheduler :=
  if s.queue.isEmpty then return s
  else do
    let (task, queue) ← s.queue.nextTask
    return { s with currentTask := task, queue }

def setStatus (s : Scheduler) (status : Status) : Except Trap Scheduler := do
  let tasks ← s.tasks.modify s.currentTask fun t => { t with status }
  return { s with tasks }

/-- What the loop does with a task that cannot run: the next task of the queue, or the idle
task if that is the same task again. -/
def skip (s : Scheduler) : Except Trap Scheduler := do
  let (next, queue) ← s.queue.nextTask
  if next ≠ s.currentTask then
    let task ← queue.getCurrent
    return { s with queue, currentTask := some task }
  else return { s with queue, currentTask := s.idleTask }

/-- A turn of the selection loop; the flag says that the loop is left. -/
def turn (s : Scheduler) : Except Trap (Bool × Scheduler) := do
  let task ← s.tasks.read s.currentTask
  match task.status with
  | .running => return (true, s)
  | .ready =>
    let s ← s.setStatus .running
    return (true, s)
  | .sleeping =>
    let now := hw.tsc s.tscReads
    let s := { s with tscReads := s.tscReads + 1 }
    if now ≥ task.tscSleep then
      let s ← s.setStatus .running
      return (false, s)
    else
      let s ← s.skip
      return (false, s)
  | .waitingIo =>
    let s ← s.skip
    return (false, s)

/-- The selection loop; `fuel` bounds the turns after the first one. -/
def selectLoop : Nat → Scheduler → Except Trap Scheduler
  | 0, s => do
    let (stop, s) ← s.turn hw
    if stop then return s else .error .timeout
  | fuel + 1, s => do
    let (stop, s) ← s.turn hw
    if stop then return s else selectLoop fuel s

def select (fuel : Nat) (s : Scheduler) : Except Trap Scheduler := do
  let s ← s.advance
  s.selectLoop hw fuel

/-- The last step of `schedule`: the registers to resume and the address space switch. -/
def loadTask (s : Scheduler) : Except Trap (Registers × Scheduler) := do
  let task ← s.tasks.read s.currentTask
  let context ← s.contexts.read (some task.context)
  let space ← s.spaces.read (some task.addressSpace)
  return (context, { s with cr3 := space.pml4 - hw.hhdm })

def schedule (fuel : Nat) (s : Scheduler) (context : Registers) :
    Except Trap (Registers × Scheduler) :=
  if s.queue.isEmpty ∧ s.idleTask = none then return (context, s)
  else do
    let s ← s.saveContext context
    let s ← s.select hw fuel
    s.loadTask hw

/-- `Timer::Lapic::handler`, entered by a tick of the timer and by `yield`. -/
def handler (fuel : Nat) (s : Scheduler) (regs : Registers) :
    Except Trap (Registers × Scheduler) :=
  { s with realTime := u64 (s.realTime + 1) }.schedule hw fuel regs

def addTask (s : Scheduler) (task : Nat) : Except Trap Scheduler := do
  let queue ← s.queue.addTask task
  return { s with queue }

/-- `delete current_task`. The walk and the release of the address space's tables are left
out here; they read no other object of the scheduler. -/
def deleteCurrent (s : Scheduler) : Except Trap Scheduler := do
  let task ← s.tasks.read s.currentTask
  let spaces ← s.spaces.free (some task.addressSpace)
  let contexts ← s.contexts.free (some task.context)
  let tasks ← s.tasks.free s.currentTask
  return { s with tasks, contexts, spaces }

def killAndYield (fuel : Nat) (s : Scheduler) (regs : Registers) :
    Except Trap (Registers × Scheduler) :=
  if s.queue.isEmpty then return (regs, s)
  else do
    let s ← s.deleteCurrent
    let queue ← s.queue.removeCurrent
    { s with queue }.handler hw fuel regs

def sleep (fuel : Nat) (s : Scheduler) (ms : Nat) (regs : Registers) :
    Except Trap (Registers × Scheduler) := do
  let s ← s.setStatus .sleeping
  let wake := u64 (hw.tsc s.tscReads + u64 (hw.cyclesPerMs * ms))
  let s := { s with tscReads := s.tscReads + 1 }
  let tasks ← s.tasks.modify s.currentTask fun t => { t with tscSleep := wake }
  { s with tasks }.handler hw fuel regs

def awaitIo (fuel : Nat) (s : Scheduler) (regs : Registers) :
    Except Trap (Registers × Scheduler) := do
  let s ← s.setStatus .waitingIo
  s.handler hw fuel regs

/-- The operations, with the registers at the interrupt they end in. -/
inductive Op
  | addTask (new : NewTask)
  | timer (regs : Registers)
  | yield (regs : Registers)
  | sleep (ms : Nat) (regs : Registers)
  | awaitIo (regs : Registers)
  | kill (regs : Registers)

def step (fuel : Nat) (s : Scheduler) : Op → Except Trap Scheduler
  | .addTask new => (s.create new).2.addTask (s.create new).1
  | .timer regs => (s.handler hw fuel regs).map Prod.snd
  | .yield regs => (s.handler hw fuel regs).map Prod.snd
  | .sleep ms regs => (s.sleep hw fuel ms regs).map Prod.snd
  | .awaitIo regs => (s.awaitIo hw fuel regs).map Prod.snd
  | .kill regs => (s.killAndYield hw fuel regs).map Prod.snd

end Scheduler

end UmbraOS
