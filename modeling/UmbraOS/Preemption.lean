import UmbraOS.InterruptStub

namespace UmbraOS

/-- The kernel and the CPU it runs on. -/
structure System where
  kernel : Kernel
  cpu : Processor

namespace System

open Interrupt

/-- What the running code calls for when it comes to the interrupt of the timer. -/
inductive Entry
  | timer
  | yield
  | sleep (ms : Nat)
  | awaitIo
  | kill
  | futexWait (pointer : Nat) (value : BitVec 32)
  | futexTurn (task pointer : Nat)

def Entry.event (regs : Registers) : Entry → Kernel.Event
  | .timer => .timer regs
  | .yield => .yield regs
  | .sleep ms => .sleep ms regs
  | .awaitIo => .awaitIo regs
  | .kill => .kill regs
  | .futexWait pointer value => .futexWait pointer value value regs
  | .futexTurn task pointer => .futexTurn task pointer regs

/-- The calls that mark the task as sleeping or waiting before its interrupt comes. -/
def Entry.marks : Entry → Bool
  | .timer => false
  | .yield => false
  | .kill => false
  | _ => true

/-- What the kernel does besides without a call of `schedule`. -/
inductive Quiet
  | none
  | addTask (new : NewTask)
  | wakeIo (kbEvent : KeyboardEvent)
  | wakeNet
  | futexWake (pointer : Nat)
  | tcbSet (pointer : BitVec 64)

def Quiet.event : Quiet → Option Kernel.Event
  | .none => Option.none
  | .addTask new => some (.addTask new)
  | .wakeIo kbEvent => some (.wakeIo kbEvent)
  | .wakeNet => some .wakeNet
  | .futexWake pointer => some (.futexWake pointer)
  | .tcbSet pointer => some (.tcbSet pointer)

/-- The memory after code that leaves the registers at `regs` as they are. -/
def around (writes : Memory) : IrqHandler := fun m regs x =>
  if regs ≤ x ∧ x < regs + frameSize then m x else writes x

/-- A part of a run: the code of the current task goes on in any way, with what the kernel does for
it; or the interrupt of the timer comes and `schedule` runs; or another interrupt comes, whose
handler uses its registers for nothing. -/
inductive Move
  | code (cpu : Processor) (call : Quiet)
  | switch (entry : Entry) (clobbered : Gpr → BitVec 64) (writes : Memory)
  | irq (i : Nat) (err : Option (BitVec 64)) (call : Quiet) (clobbered : Gpr → BitVec 64) (writes : Memory)

/-- What the CPU was when the code of each task was interrupted last, or what it starts with. -/
abbrev Frozen := Nat → Option Processor

/-- The code that is not kept: that of the boot, which runs in the name of the idle task until that
one is chosen, and that of the idle task while no task is queued. -/
def unkept (s : Scheduler) (entry : Entry) (t : Nat) : Bool :=
  s.idleTask = some t && (s.queue.isEmpty ||
    !entry.marks && (s.tasks.cell t).any fun task => task.status = .ready)

variable (hw : Platform) (fuel : Nat) (rsp0 : BitVec 64) (offsets : Nat → BitVec 64)

def quiet (k : Kernel) (call : Quiet) : Except Trap Kernel := KernelStack.happen hw fuel k call.event

/-- `schedule` in the interrupt of the timer. It finds the registers of the running code in the
struct, and copies those of the task that it chooses there. -/
def switch (s : System) (entry : Entry) (clobbered : Gpr → BitVec 64) (writes : Memory) :
    Except Trap System := do
  let call := atDispatch rsp0 (offsets 32) 32 none s.cpu
  let regs := (call.regs .rdi).toNat
  let kernel ← s.kernel.step hw fuel (entry.event (.ofMemory call.memory regs))
  match kernel.loaded with
  | some context =>
    let m := storeWords (around writes call.memory regs) regs context.words
    return ⟨kernel, afterDispatch clobbered m (call.regs .rdi)⟩
  | none => throw .nullDeref

def irq (s : System) (i : Nat) (err : Option (BitVec 64)) (call : Quiet) (clobbered : Gpr → BitVec 64)
    (writes : Memory) : Except Trap System := do
  let kernel ← quiet hw fuel s.kernel call
  match interrupt (fun _ => some (around writes)) clobbered rsp0 (offsets i) i err s.cpu with
  | some cpu => return ⟨kernel, cpu⟩
  | none => throw .timeout

def step (s : System) : Move → Except Trap System
  | .code cpu call => do
    let kernel ← quiet hw fuel s.kernel call
    return ⟨kernel, cpu⟩
  | .switch entry clobbered writes => s.switch hw fuel rsp0 offsets entry clobbered writes
  | .irq i err call clobbered writes => s.irq hw fuel rsp0 offsets i err call clobbered writes

/-- The CPU of a task that has not run. -/
def freshCpu (new : NewTask) : Processor := .ofRegisters new.context fun _ => 0

def Quiet.freeze (k : Kernel) (frozen : Frozen) : Quiet → Frozen
  | .addTask new => Function.update frozen k.sched.tasks.next (some (freshCpu new))
  | _ => frozen

def freeze (s : System) (frozen : Frozen) : Move → Frozen
  | .code _ call => call.freeze s.kernel frozen
  | .irq _ _ call _ _ => call.freeze s.kernel frozen
  | .switch entry _ _ =>
    match s.kernel.sched.currentTask with
    | some t =>
      if unkept s.kernel.sched entry t then frozen else Function.update frozen t (some s.cpu)
    | none => frozen

def frozenStep (p : System × Frozen) (move : Move) : Except Trap (System × Frozen) := do
  let s ← p.1.step hw fuel rsp0 offsets move
  return (s, freeze p.1 p.2 move)

/-- Exceptions come with the error codes of the CPU, the stack in use has room, and the idle task
does not exit. -/
def Arrives (rsp0 : BitVec 64) (p : System × Frozen) : Move → Prop
  | .code _ _ => True
  | .switch entry _ _ => Room rsp0 p.1.cpu ∧
      (entry = .kill → p.1.kernel.sched.currentTask ≠ p.1.kernel.sched.idleTask)
  | .irq i err _ _ _ => Suits i err ∧ Room rsp0 p.1.cpu

def init (idle : NewTask) (cpu : Processor) : System × Frozen :=
  (⟨Kernel.init idle, cpu⟩, fun t => if t = 0 then some (freshCpu idle) else none)

/-- After an interrupt the CPU goes on with the registers of the running code, or, after `schedule`,
with those that the code of the task it chose was interrupted with. -/
def Resumes (p : System × Frozen) (move : Move) (p' : System × Frozen) : Prop :=
  match move with
  | .code _ _ => True
  | .irq _ _ _ _ _ => p'.1.cpu = { p.1.cpu with memory := p'.1.cpu.memory }
  | .switch _ _ _ => ∃ t c, p'.1.kernel.sched.currentTask = some t ∧ p'.2 t = some c ∧
      p'.1.cpu = { c with memory := p'.1.cpu.memory }

variable {hw fuel rsp0 offsets}

/-- A register file holds all registers of a CPU. -/
def Holds (r : Registers) (c : Processor) : Prop :=
  ∀ m, Processor.ofRegisters r m = { c with memory := m }

/-- Every context holds what the code of its task was interrupted with. -/
def Keeps (s : Scheduler) (frozen : Frozen) : Prop :=
  ∀ t r, Kernel.Saved s t r → ∃ c, frozen t = some c ∧ Holds r c

structure Sound (p : System × Frozen) : Prop where
  inOrder : ∃ ns c, Scheduler.Coherent p.1.kernel.sched ns c
  keeps : Keeps p.1.kernel.sched p.2

theorem init_sound (idle : NewTask) (cpu : Processor) : Sound (init idle cpu) := by
  refine ⟨⟨[], 0, Scheduler.init_coherent idle⟩, fun t r hsaved => ?_⟩
  obtain ⟨rfl, rfl⟩ := Kernel.saved_init hsaved
  exact ⟨freshCpu idle, rfl, fun m => rfl⟩

theorem Keeps.update {s s' : Scheduler} {frozen : Frozen} {t : Nat} {c : Processor}
    (h : Keeps s frozen) (hs : ∀ u r, Kernel.Saved s' u r →
      u = t ∧ Holds r c ∨ u ≠ t ∧ Kernel.Saved s u r) :
    Keeps s' (Function.update frozen t (some c)) := by
  intro u r hsaved
  rcases hs u r hsaved with ⟨rfl, hr⟩ | ⟨hne, hold⟩
  · exact ⟨c, Function.update_self _ _ _, hr⟩
  · obtain ⟨c', hc', hr⟩ := h u r hold
    exact ⟨c', (Function.update_of_ne hne _ _).trans hc', hr⟩

theorem Sound.quiet {k k' : Kernel} {cpu : Processor} {frozen : Frozen} {call : Quiet}
    (h : Sound (⟨k, cpu⟩, frozen)) (hq : System.quiet hw fuel k call = .ok k') (cpu' : Processor) :
    Sound (⟨k', cpu'⟩, call.freeze k frozen) := by
  obtain ⟨⟨ns, c, hcoh⟩, hkeeps⟩ := h
  have hwoken : ∀ {which : Nat → Prop}, Scheduler.Woken k.sched k'.sched which →
      Sound (⟨k', cpu'⟩, frozen) := by
    intro which hw'
    exact ⟨⟨ns, c, hw'.coherent hcoh⟩, fun t r hr => hkeeps t r (Kernel.saved_woken hw' hr)⟩
  cases call with
  | none =>
    cases hq
    exact ⟨⟨ns, c, hcoh⟩, hkeeps⟩
  | addTask new =>
    have hs : k.step hw fuel (.addTask new) = .ok k' := hq
    have heffect := Kernel.step_effect hcoh (fun _ he => by cases he) hs
    refine ⟨heffect.coherent hcoh, ?_⟩
    cases heffect with
    | wake which hwakes => cases hwakes
    | switch regs context s henters => cases henters
    | addTask new a c' hcoh' hsched =>
      apply hkeeps.update
      intro u r hsaved
      rcases Kernel.saved_create hcoh hsched hsaved with ⟨rfl, rfl⟩ | hold
      · exact Or.inl ⟨rfl, fun m => rfl⟩
      · exact Or.inr hold
  | wakeIo kbEvent => exact hwoken (Kernel.wakeIo_woken hq).2
  | wakeNet => exact hwoken (Kernel.wakeNet_woken hq).2
  | futexWake pointer => exact hwoken (Kernel.wakeFutexLoop_woken hq).2
  | tcbSet pointer =>
    cases hq
    exact ⟨⟨ns, c, hcoh⟩, hkeeps⟩

/-- What `schedule` does at an entry other than an exit: it finds the scheduler `s`. -/
structure Switches (hw : Platform) (k k' : Kernel) (ns : List (Nat × Nat)) (entry : Entry) (t : Nat)
    (regs : Registers) (s : Scheduler) : Prop where
  before : ∃ c, Scheduler.Coherent s ns c
  current : s.currentTask = some t
  idleTask : s.idleTask = k.sched.idleTask
  saved : ∀ u r, Kernel.Saved s u r → Kernel.Saved k.sched u r
  ready : ∀ task, s.tasks.cell t = some task → (task.status = .ready ↔ entry.marks = false ∧
    (k.sched.tasks.cell t).any (fun old => old.status = .ready) = true)
  after : ∃ context, Scheduler.Switched hw regs context s k'.sched ns ∧ k'.loaded = some context

theorem Switches.plain {k k' : Kernel} {ns : List (Nat × Nat)} {c t : Nat} {entry : Entry}
    {regs : Registers} (hc : k.sched.currentTask = some t)
    (h : Scheduler.Coherent k.sched ns c ∧ ∃ context,
      Scheduler.Switched hw regs context k.sched k'.sched ns ∧ k'.loaded = some context)
    (hmarks : entry.marks = false) : Switches hw k k' ns entry t regs k.sched := by
  refine ⟨⟨c, h.1⟩, hc, rfl, fun _ _ hr => hr, fun task ht => ?_, h.2⟩
  rw [ht, hmarks]
  simp

theorem Switches.marked {k k' : Kernel} {ns : List (Nat × Nat)} {c t reads : Nat} {entry : Entry}
    {regs : Registers} {f : Task → Task} (hc : k.sched.currentTask = some t)
    (h : Scheduler.Coherent
        { k.sched with tscReads := reads, tasks := k.sched.tasks.adjust t f } ns c ∧
      ∃ context, Scheduler.Switched hw regs context
        { k.sched with tscReads := reads, tasks := k.sched.tasks.adjust t f } k'.sched ns ∧
        k'.loaded = some context)
    (hmarks : entry.marks = true) (hf : ∀ x, (f x).context = x.context)
    (hstatus : ∀ x, (f x).status ≠ .ready) : Switches hw k k' ns entry t regs
      { k.sched with tscReads := reads, tasks := k.sched.tasks.adjust t f } := by
  refine ⟨⟨c, h.1⟩, hc, rfl, fun _ _ hr => Kernel.saved_adjust t reads hf hr, fun task ht => ?_, h.2⟩
  rcases CellStore.adjust_cell_cases ht with ⟨hne, _⟩ | ⟨_, old, _, rfl⟩
  · exact absurd rfl hne
  · simp [hstatus old, hmarks]

theorem switches_of_step {k k' : Kernel} {ns : List (Nat × Nat)} {c t : Nat} {entry : Entry}
    {regs : Registers} (h : Scheduler.Coherent k.sched ns c) (hc : k.sched.currentTask = some t)
    (hkill : entry ≠ .kill) (hs : k.step hw fuel (entry.event regs) = .ok k') :
    ∃ s, Switches hw k k' ns entry t regs s := by
  have hne : ∀ regs', entry.event regs = .kill regs' → k.sched.currentTask ≠ k.sched.idleTask := by
    intro regs' he
    cases entry with
    | kill => exact absurd rfl hkill
    | _ => cases he
  have heffect := Kernel.step_effect h hne hs
  cases entry with
  | kill => exact absurd rfl hkill
  | timer => exact ⟨_, .plain hc (heffect.entered (.timer regs)) rfl⟩
  | yield => exact ⟨_, .plain hc (heffect.entered (.yield regs)) rfl⟩
  | sleep ms =>
    exact ⟨_, .marked hc (heffect.entered (.sleep ms regs hc)) rfl (fun _ => rfl) fun _ => nofun⟩
  | awaitIo =>
    exact ⟨_, .marked hc (heffect.entered (.awaitIo regs hc)) rfl (fun _ => rfl) fun _ => nofun⟩
  | futexTurn task pointer =>
    have hentered := heffect.entered (.futexTurn task pointer regs hc)
    exact ⟨_, .marked hc hentered rfl (fun _ => rfl) fun _ => nofun⟩
  | futexWait pointer value =>
    cases heffect with
    | wake which hwakes => cases hwakes
    | switch regs context s henters => cases henters
    | again pointer value expected regs hne => exact absurd rfl hne
    | wait u pointer value regs context hu hbefore hswitch list hframe =>
      rw [hc] at hu
      obtain rfl := Option.some.inj hu
      have hloaded : k'.loaded = some context := by rw [hframe]
      exact ⟨_, .marked hc ⟨hbefore, context, hswitch, hloaded⟩ rfl (fun _ => rfl) fun _ => nofun⟩

/-- The registers that `schedule` loads are in the context of the task it chose. -/
def Loads (k : Kernel) : Prop := ∃ t context, k.sched.currentTask = some t ∧
  k.loaded = some context ∧ Kernel.Saved k.sched t context

theorem Switches.loads {k k' : Kernel} {ns : List (Nat × Nat)} {entry : Entry} {t : Nat}
    {regs : Registers} {s : Scheduler} (h : Switches hw k k' ns entry t regs s) : Loads k' := by
  obtain ⟨context, hswitch, hloaded⟩ := h.after
  obtain ⟨u, task, hu, ht, hcell⟩ := hswitch.loads
  exact ⟨u, context, hu, hloaded, task, ht, hcell⟩

/-- The code that `schedule` saves is that which is kept as the interrupted one of its task. -/
theorem Keeps.switch {k k' : Kernel} {ns : List (Nat × Nat)} {c t : Nat} {entry : Entry}
    {regs : Registers} {s : Scheduler} {frozen : Frozen} {cpu : Processor}
    (h : Keeps k.sched frozen) (hcoh : Scheduler.Coherent k.sched ns c)
    (hc : k.sched.currentTask = some t) (hs : Switches hw k k' ns entry t regs s)
    (hregs : Holds regs cpu) : Keeps k'.sched
      (if unkept k.sched entry t then frozen else Function.update frozen t (some cpu)) := by
  obtain ⟨c', hbefore⟩ := hs.before
  obtain ⟨u, task, hu, ht⟩ := hbefore.current_task
  rw [hs.current] at hu
  obtain rfl := Option.some.inj hu
  obtain ⟨context, hswitch, _⟩ := hs.after
  have hapart : ∀ t u a b, s.tasks.cell t = some a → s.tasks.cell u = some b → t ≠ u →
      a.context ≠ b.context := fun t u a b ha hb hne => (hbefore.apart t u a b ha hb hne).1
  have hempty : k.sched.queue.isEmpty = true ↔ ns = [] := by
    rw [hcoh.queue.isEmpty_eq]
    simp
  have hunkept : unkept k.sched entry t = true ↔ ns = [] ∨ task.status = .ready := by
    have hidle : ns = [] ∨ task.status = .ready → k.sched.idleTask = some t := by
      rw [← hs.idleTask]
      exact Kernel.idle_of_unsaved hbefore hs.current ht
    rw [unkept, hs.ready task ht, ← hempty] at *
    simpa using hidle
  have hsaved := fun u r => @Kernel.saved_switched hw s k'.sched ns t task regs context hswitch
    hbefore.context hapart hs.current ht u r
  split
  next hyes =>
    intro u r hr
    rcases hsaved u r hr with ⟨⟨rfl, _⟩, hbusy, hstarted⟩ | ⟨hold, _⟩
    · exact absurd (hunkept.mp hyes) (by simp [hbusy, hstarted])
    · exact h u r (hs.saved u r hold)
  next hno =>
    apply h.update
    intro u r hr
    rcases hsaved u r hr with ⟨⟨rfl, rfl⟩, _⟩ | ⟨hold, hnot⟩
    · exact Or.inl ⟨rfl, hregs⟩
    · exact Or.inr ⟨fun he => hno (hunkept.mpr (hnot he)), hs.saved u r hold⟩

/-- A task that exits takes its context along, and nothing is saved in another. -/
theorem exit_of_step {k k' : Kernel} {ns : List (Nat × Nat)} {c t : Nat} {regs : Registers}
    (h : Scheduler.Coherent k.sched ns c) (hc : k.sched.currentTask = some t)
    (hne : k.sched.currentTask ≠ k.sched.idleTask) (hs : k.step hw fuel (.kill regs) = .ok k') :
    (∀ u r, Kernel.Saved k'.sched u r → u ≠ t ∧ Kernel.Saved k.sched u r) ∧ Loads k' := by
  cases Kernel.step_effect h (fun _ _ => hne) hs with
  | wake which hwakes => cases hwakes
  | switch regs context s henters => cases henters
  | kill u task q s regs context hbusy hu ht hswitch hafter hframe =>
    rw [hc] at hu
    obtain rfl := Option.some.inj hu
    have hsched : k'.sched = s.deleted t task := by rw [hframe]
    have hloaded : k'.loaded = some context := by rw [hframe]
    rw [Loads, hsched, hloaded]
    refine ⟨fun u r hsaved => ?_, ?_⟩
    · obtain ⟨new, hnew, hr⟩ := hsaved
      obtain ⟨hut, hnew⟩ := CellStore.erase_cell_live hnew
      obtain ⟨_, hr'⟩ := CellStore.erase_cell_live hr
      refine ⟨hut, ?_⟩
      have hapart : ∀ t u a b, k.sched.tasks.cell t = some a → k.sched.tasks.cell u = some b →
          t ≠ u → a.context ≠ b.context := fun t u a b ha hb hne => (h.apart t u a b ha hb hne).1
      rcases Kernel.saved_switched hswitch h.context hapart hc ht ⟨new, hnew, hr'⟩ with
        ⟨⟨rfl, _⟩, _⟩ | ⟨hold, _⟩
      · exact absurd rfl hut
      · exact hold
    · obtain ⟨c', hcoh⟩ := hafter
      obtain ⟨u, new, hu, hnew, hcell⟩ := hswitch.loads
      obtain ⟨v, new', hv, hnew'⟩ := hcoh.current_task
      have hv : s.currentTask = some v := hv
      rw [hu] at hv
      obtain rfl := Option.some.inj hv
      obtain ⟨r, hr⟩ := hcoh.context u new' hnew'
      obtain ⟨_, hold⟩ := CellStore.erase_cell_live hnew'
      rw [hnew] at hold
      obtain rfl := Option.some.inj hold
      obtain ⟨_, hkept⟩ := CellStore.erase_cell_live hr
      rw [hcell] at hkept
      obtain rfl := Option.some.inj hkept
      exact ⟨u, _, hu, rfl, new, hnew', hr⟩

/-- `schedule` saves the registers of the running code, and the CPU goes on with those it loads. -/
theorem switch_ok {s s' : System} {entry : Entry} {clobbered : Gpr → BitVec 64} {writes : Memory}
    (hroom : Room rsp0 s.cpu) (h : s.switch hw fuel rsp0 offsets entry clobbered writes = .ok s') :
    s.kernel.step hw fuel (entry.event (s.cpu.registers 32 0)) = .ok s'.kernel ∧
      ∃ context, s'.kernel.loaded = some context ∧
        s'.cpu = Processor.ofRegisters context s'.cpu.memory := by
  have hle := frameAt_le hroom
  have hframe : (BitVec.ofNat 64 (frameAt rsp0 s.cpu)).toNat = frameAt rsp0 s.cpu := by
    rw [BitVec.toNat_ofNat]
    unfold frameSize at hle
    omega
  have hsuits : Suits 32 none := ⟨by decide, by decide⟩
  have hcall : atDispatch rsp0 (offsets 32) 32 none s.cpu = _ := atDispatch_eq hsuits hroom
  have hseen := ofMemory_pushFrame s.cpu.memory (s.cpu.entrySp rsp0).toNat (s.cpu.registers 32 0)
  unfold switch at h
  simp only [hcall, Function.update_self, hframe] at h
  obtain ⟨kernel, hstep, h⟩ := Except.bind_eq_ok.mp h
  cases hloaded : kernel.loaded with
  | none =>
    rw [hloaded] at h
    cases h
  | some context =>
    rw [hloaded] at h
    cases h
    refine ⟨?_, context, hloaded, ?_⟩
    · rw [← hstep]
      exact congrArg (fun regs => s.kernel.step hw fuel (entry.event regs)) hseen.symm
    · have hback : ∀ m, afterDispatch clobbered m (BitVec.ofNat 64 (frameAt rsp0 s.cpu)) =
          Processor.ofRegisters (.ofMemory m (frameAt rsp0 s.cpu)) m := by
        intro m
        rw [afterDispatch_eq clobbered m (by rw [hframe]; exact hle), hframe]
      rw [hback, Registers.ofMemory_storeWords]
      rfl

theorem irq_ok {s s' : System} {i : Nat} {err : Option (BitVec 64)} {call : Quiet}
    {clobbered : Gpr → BitVec 64} {writes : Memory} (hsuits : Suits i err) (hroom : Room rsp0 s.cpu)
    (h : s.irq hw fuel rsp0 offsets i err call clobbered writes = .ok s') :
    quiet hw fuel s.kernel call = .ok s'.kernel ∧ s'.cpu = { s.cpu with memory := s'.cpu.memory } := by
  obtain ⟨kernel, hquiet, h⟩ := Except.bind_eq_ok.mp h
  have hrun : interrupt (fun _ => some (around writes)) clobbered rsp0 (offsets i) i err s.cpu = _ :=
    interrupt_eq hsuits hroom
  have hseen := ofMemory_pushFrame s.cpu.memory (s.cpu.entrySp rsp0).toNat
    (s.cpu.registers (BitVec.ofNat 64 i) (err.getD 0))
  have hleaves : ∀ m, Registers.ofMemory (around writes m (frameAt rsp0 s.cpu)) (frameAt rsp0 s.cpu) =
      Registers.ofMemory m (frameAt rsp0 s.cpu) := by
    intro m
    apply Registers.ofMemory_congr
    intro x hx hl
    exact if_pos ⟨hx, hl⟩
  rw [hrun] at h
  cases h
  refine ⟨hquiet, ?_⟩
  simp only [hleaves]
  rw [frameAt, hseen, Processor.ofRegisters_registers]

theorem Sound.switch {k k' : Kernel} {cpu cpu' : Processor} {frozen : Frozen} {entry : Entry}
    {regs : Registers} (h : Sound (⟨k, cpu⟩, frozen)) (hregs : Holds regs cpu)
    (hkill : entry = .kill → k.sched.currentTask ≠ k.sched.idleTask)
    (hs : k.step hw fuel (entry.event regs) = .ok k') (clobbered : Gpr → BitVec 64)
    (writes : Memory) :
    Sound (⟨k', cpu'⟩, freeze ⟨k, cpu⟩ frozen (.switch entry clobbered writes)) ∧ Loads k' := by
  obtain ⟨⟨ns, c, hcoh⟩, hkeeps⟩ := h
  obtain ⟨t, task, hc, ht⟩ := hcoh.current_task
  have hfreeze : freeze ⟨k, cpu⟩ frozen (.switch entry clobbered writes) =
      if unkept k.sched entry t then frozen else Function.update frozen t (some cpu) := by
    unfold freeze
    rw [show k.sched.currentTask = some t from hc]
  rw [hfreeze]
  have hout : ∀ regs', entry.event regs = .kill regs' → k.sched.currentTask ≠ k.sched.idleTask := by
    intro regs' he
    cases entry with
    | kill => exact hkill rfl
    | _ => cases he
  have hcoh' := (Kernel.step_effect hcoh hout hs).coherent hcoh
  by_cases hexit : entry = .kill
  · subst hexit
    obtain ⟨hsaved, hloads⟩ := exit_of_step hcoh hc (hkill rfl) hs
    have hno : unkept k.sched .kill t = false := by
      have hne : k.sched.idleTask ≠ some t := fun he => hkill rfl (hc.trans he.symm)
      simp [unkept, hne]
    rw [hno]
    exact ⟨⟨hcoh', hkeeps.update fun u r hr => Or.inr (hsaved u r hr)⟩, hloads⟩
  · obtain ⟨s, hswitches⟩ := switches_of_step hcoh hc hexit hs
    exact ⟨⟨hcoh', hkeeps.switch hcoh hc hswitches hregs⟩, hswitches.loads⟩

theorem Sound.step {p p' : System × Frozen} {move : Move} (h : Sound p) (harrives : Arrives rsp0 p move)
    (hs : frozenStep hw fuel rsp0 offsets p move = .ok p') : Sound p' ∧ Resumes p move p' := by
  obtain ⟨s, frozen⟩ := p
  obtain ⟨s', frozen'⟩ := p'
  obtain ⟨next, hstep, hs⟩ := Except.bind_eq_ok.mp hs
  cases hs
  cases move with
  | code cpu call =>
    obtain ⟨kernel, hquiet, hstep⟩ := Except.bind_eq_ok.mp hstep
    cases hstep
    exact ⟨h.quiet hquiet cpu, trivial⟩
  | irq i err call clobbered writes =>
    obtain ⟨hquiet, hcpu⟩ := irq_ok harrives.1 harrives.2 hstep
    exact ⟨h.quiet hquiet s'.cpu, hcpu⟩
  | switch entry clobbered writes =>
    obtain ⟨hroom, hkill⟩ := harrives
    obtain ⟨hkernel, context, hloaded, hcpu⟩ := switch_ok hroom hstep
    have hregs : Holds (s.cpu.registers 32 0) s.cpu := fun m => s.cpu.ofRegisters_registers 32 0 m
    obtain ⟨hsound, t, context', hc, hl, hsaved⟩ := h.switch hregs hkill hkernel clobbered writes
    rw [hloaded] at hl
    obtain rfl := Option.some.inj hl
    obtain ⟨c, hfrozen, hholds⟩ := hsound.keeps t context hsaved
    exact ⟨hsound, t, c, hc, hfrozen, hcpu.trans (hholds _)⟩

/-- In every run of tasks, of calls that switch between them, of exits and of interrupts at any
point, each interrupt leaves the registers of the code it came to as they were, and each switch
takes the CPU to a task with all the registers that its code was last interrupted with. -/
theorem tasks_keep_registers (idle : NewTask) (cpu : Processor) {moves : List Move}
    (h : Along (frozenStep hw fuel rsp0 offsets) (fun p move _ => Arrives rsp0 p move) (init idle cpu)
      moves) :
    Along (frozenStep hw fuel rsp0 offsets) Resumes (init idle cpu) moves :=
  Along.imp_of_keep (fun _ _ _ hsound harrives hs => hsound.step harrives hs) (init_sound idle cpu) h

/-- Code in ring 0 with its stack at `sp`. -/
def inKernel (sp : BitVec 64) : Processor := { Processor.user sp with cs := 0x8, ss := 0x10 }

/-- A user task is started, interrupted by a key press, waits, goes on after the idle task when the
timer comes, and exits, which takes the CPU back to the idle task. -/
def sampleMoves : List Move :=
  [.code (inKernel 0x7000) (.addTask Scheduler.plainTask), .switch .timer (fun _ => 0) (fun _ => 0),
    .code (.user 0x6000) .none,
    .irq 33 none (.wakeIo ⟨0, 0#8, true⟩) (fun _ => 1) (fun _ => 1),
    .code (.user 0x5000) .none, .switch .awaitIo (fun _ => 2) (fun _ => 2),
    .code (inKernel 0x4000) .wakeNet, .switch .timer (fun _ => 3) (fun _ => 3),
    .code (inKernel 0x3000) .none, .switch .kill (fun _ => 4) (fun _ => 4)]

theorem sample_keeps_registers : ∃ s frozen,
    run (frozenStep ⟨id, 1, 0⟩ 4 0x100000 fun _ => 0) (init Scheduler.plainTask (inKernel 0x8000))
      sampleMoves = .ok (s, frozen) ∧
    s.kernel.sched.currentTask = s.kernel.sched.idleTask ∧
    (∃ c, frozen 0 = some c ∧ c.sp = 0x4000) ∧ (∃ c, frozen 1 = some c ∧ c.sp = 0x3000) ∧
    Along (frozenStep ⟨id, 1, 0⟩ 4 0x100000 fun _ => 0) Resumes
      (init Scheduler.plainTask (inKernel 0x8000)) sampleMoves := by
  have hroom : ∀ sp, Room 0x100000 (.user sp) := by
    intro sp
    have hring : (Processor.user sp).ring3 = true := show decide (0x1b#64 &&& 3 = 3) = true by decide
    unfold Room Processor.entrySp
    rw [if_pos hring]
    decide
  have hkernel : Room 0x100000 (inKernel 0x7000) ∧ Room 0x100000 (inKernel 0x4000) ∧
      Room 0x100000 (inKernel 0x3000) := by
    unfold Room
    decide
  refine ⟨_, _, rfl, rfl, ⟨_, rfl, rfl⟩, ⟨_, rfl, rfl⟩, tasks_keep_registers _ _ ?_⟩
  intro p₁ h₁
  cases h₁
  refine ⟨trivial, fun p₂ h₂ => ?_⟩
  cases h₂
  refine ⟨⟨hkernel.1, fun he => by cases he⟩, fun p₃ h₃ => ?_⟩
  cases h₃
  refine ⟨trivial, fun p₄ h₄ => ?_⟩
  cases h₄
  refine ⟨⟨⟨by decide, by decide⟩, hroom _⟩, fun p₅ h₅ => ?_⟩
  cases h₅
  refine ⟨trivial, fun p₆ h₆ => ?_⟩
  cases h₆
  refine ⟨⟨hroom _, fun he => by cases he⟩, fun p₇ h₇ => ?_⟩
  cases h₇
  refine ⟨trivial, fun p₈ h₈ => ?_⟩
  cases h₈
  refine ⟨⟨hkernel.2.1, fun he => by cases he⟩, fun p₉ h₉ => ?_⟩
  cases h₉
  refine ⟨trivial, fun p₁₀ h₁₀ => ?_⟩
  cases h₁₀
  exact ⟨⟨hkernel.2.2, fun _ he => absurd (Option.some.inj he) (by decide)⟩, trivial⟩

end System

end UmbraOS
