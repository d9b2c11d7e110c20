import UmbraOS.SchedulerBoot

namespace UmbraOS

namespace Scheduler

variable {hw : Platform} {fuel : Nat}

/-- An interrupted task other than the idle task has its registers in its own context. -/
theorem Switched.saved {regs context : Registers} {s s' : Scheduler} {ns : List (Nat × Nat)} {c t : Nat}
    (hs : Switched hw regs context s s' ns) (h : Coherent s ns c) (hc : s.currentTask = some t)
    (hne : s.currentTask ≠ s.idleTask) : Kernel.Saved s' t regs := by
  obtain ⟨hbusy, _⟩ := h.looks.resolve_left hne
  rcases hs.saves with ⟨hnil, _⟩ | ⟨_, u, task, hu, ht, he⟩
  · exact absurd hnil hbusy
  · rw [hc] at hu
    obtain rfl := Option.some.inj hu
    rw [if_neg (h.started _ task hc hne ht)] at he
    obtain ⟨old, ho⟩ := h.context _ task ht
    obtain ⟨task', ht', hctx⟩ : ∃ task', s'.tasks.cell t = some task' ∧ task'.context = task.context := by
      rcases hs.task t with heq | ⟨before, hb, ha, _⟩
      · exact ⟨task, heq.trans ht, rfl⟩
      · rw [ht] at hb
        obtain rfl := Option.some.inj hb
        exact ⟨_, ha, rfl⟩
    refine ⟨task', ht', ?_⟩
    rw [hctx, he, CellStore.adjust_cell_self _ ho]

/-- `schedule` returns at once where the scheduler is not initialized yet. -/
theorem handler_uninitialized {s : Scheduler} (hidle : s.idleTask = none) (hempty : s.queue.isEmpty = true)
    (regs : Registers) :
    s.handler hw fuel regs = .ok (regs, { s with realTime := u64 (s.realTime + 1) }) := by
  unfold handler schedule
  rw [if_pos ⟨hempty, hidle⟩]
  rfl

/-- The two tasks of the boot code, with the idle task known to the scheduler. -/
def created (kernelMain idle : NewTask) : Scheduler :=
  { ((blank.create kernelMain).2.create idle).2 with idleTask := some 1 }

theorem created_task {kernelMain idle : NewTask} {t : Nat} {task : Task}
    (h : (created kernelMain idle).tasks.cell t = some task) :
    t = 0 ∧ task = ⟨.ready, 0, 0, kernelMain.tscSleep⟩ ∨ t = 1 ∧ task = ⟨.ready, 1, 1, idle.tscSleep⟩ := by
  have hcells : (created kernelMain idle).tasks = (CellStore.empty.alloc
      ⟨.ready, 0, 0, kernelMain.tscSleep⟩).alloc ⟨.ready, 1, 1, idle.tscSleep⟩ := rfl
  rw [hcells, CellStore.alloc_cell] at h
  split at h
  next hidle => exact Or.inr ⟨hidle, (Option.some.inj h).symm⟩
  next =>
    rw [CellStore.alloc_cell] at h
    split at h
    next hkernel => exact Or.inl ⟨hkernel, (Option.some.inj h).symm⟩
    next => cases h

theorem created_context {kernelMain idle : NewTask} {t : Nat} {task : Task} {r : Registers}
    (h : (created kernelMain idle).tasks.cell t = some task)
    (hr : (created kernelMain idle).contexts.cell task.context = some r) :
    r = kernelMain.context ∨ r = idle.context := by
  rcases created_task h with ⟨rfl, rfl⟩ | ⟨rfl, rfl⟩
  · exact Or.inl (Option.some.inj hr).symm
  · exact Or.inr (Option.some.inj hr).symm

/-- The scheduler once `kernel_main` is queued. -/
theorem created_coherent (kernelMain idle : NewTask) {q : TaskList} (hq : q.Holds [(0, 0)] 0) (time : Nat) :
    Coherent { created kernelMain idle with realTime := time, currentTask := some 1, queue := q }
      [(0, 0)] 0 := by
  refine ⟨⟨⟨hq, ?_, 1, _, rfl, rfl⟩, ?_, ?_, ?_, ?_⟩, by simp, Or.inl rfl, fun _ _ _ hne => absurd rfl hne⟩
  · intro p hp
    rw [List.mem_singleton.mp hp]
    exact ⟨_, rfl⟩
  · intro p hp hidle
    rw [List.mem_singleton.mp hp] at hidle
    exact absurd (Option.some.inj hidle) (by decide)
  · intro t task ht
    rcases created_task ht with ⟨rfl, rfl⟩ | ⟨rfl, rfl⟩
    · exact ⟨_, rfl⟩
    · exact ⟨_, rfl⟩
  · intro t task ht
    rcases created_task ht with ⟨rfl, rfl⟩ | ⟨rfl, rfl⟩
    · exact ⟨_, rfl⟩
    · exact ⟨_, rfl⟩
  · intro t u a b ha hb hne
    rcases created_task ha with ⟨rfl, rfl⟩ | ⟨rfl, rfl⟩
    · rcases created_task hb with ⟨rfl, rfl⟩ | ⟨rfl, rfl⟩
      · exact absurd rfl hne
      · exact ⟨Nat.zero_ne_one, Nat.zero_ne_one⟩
    · rcases created_task hb with ⟨rfl, rfl⟩ | ⟨rfl, rfl⟩
      · exact ⟨Nat.one_ne_zero, Nat.one_ne_zero⟩
      · exact absurd rfl hne

/-- With an idle task and an empty queue, `schedule` switches to the idle task and saves nothing. -/
theorem handler_half_initialized (kernelMain idle : NewTask) (regs : Registers) (time : Nat)
    (current : Option Nat) {queue : TaskList} (hfront : queue.front = none) :
    handler hw fuel { created kernelMain idle with realTime := time, currentTask := current, queue } regs =
      .ok (idle.context, { created kernelMain idle with
        realTime := u64 (time + 1)
        currentTask := some 1
        queue
        tasks := (created kernelMain idle).tasks.adjust 1 fun t => { t with status := .running }
        cr3 := idle.space.pml4 - hw.hhdm }) := by
  obtain ⟨nodes, front, cursor⟩ := queue
  cases hfront
  cases fuel <;> rfl

theorem Coherent.setDeadline {s s' : Scheduler} {ns : List (Nat × Nat)} {c ms : Nat} (h : Coherent s ns c)
    (hs : s.setDeadline hw ms = .ok s') : Coherent s' ns c ∧ s'.currentTask = s.currentTask := by
  obtain ⟨t, task, hc, ht⟩ := h.current_task
  obtain ⟨tasks, hmod, hs⟩ := Except.bind_eq_ok.mp hs
  cases hs
  rw [hc, CellStore.modify_live _ ht] at hmod
  obtain rfl := Except.ok.inj hmod
  have hstock := h.toStocked.adjust t (f := fun x => { x with
    tscSleep := u64 (hw.tsc s.tscReads + u64 (hw.cyclesPerMs * ms)) }) (fun _ => rfl) fun _ => rfl
  refine ⟨⟨⟨⟨hstock.queue, hstock.queued, hstock.idle⟩, hstock.idleOut, hstock.context, hstock.space,
    hstock.apart⟩, h.distinct, h.looks, fun u new hu hne hnew => ?_⟩, rfl⟩
  have hcur : s.currentTask = some u := hu
  rw [hc] at hcur
  obtain rfl := Option.some.inj hcur
  rw [CellStore.adjust_cell_self _ ht] at hnew
  obtain rfl := Option.some.inj hnew
  exact h.started _ task hc hne ht

theorem Coherent.setStatus {s s' : Scheduler} {ns : List (Nat × Nat)} {c : Nat} {status : Status}
    (h : Coherent s ns c) (hready : status ≠ .ready) (hs : s.setStatus status = .ok s') :
    Coherent s' ns c ∧ s'.currentTask = s.currentTask := by
  obtain ⟨t, task, hc, ht⟩ := h.current_task
  rw [setStatus_eq hc ht] at hs
  cases hs
  exact ⟨h.adjustCurrent hc (f := fun x => { x with status }) (fun _ => rfl) (fun _ => rfl)
    (fun _ => hready) s.tscReads, rfl⟩

end Scheduler

namespace Kernel

open Scheduler

variable {hw : Platform} {fuel : Nat}

theorem Enters.parts {k : Kernel} {e : Event} {regs : Registers} {s : Scheduler}
    (h : Enters hw k e regs s) : s.currentTask = k.sched.currentTask ∧ s.idleTask = k.sched.idleTask ∧
      e.interrupt = some regs := by
  cases h with
  | timer => exact ⟨rfl, rfl, rfl⟩
  | yield => exact ⟨rfl, rfl, rfl⟩
  | sleep ms _ _ => exact ⟨rfl, rfl, rfl⟩
  | awaitIo _ _ => exact ⟨rfl, rfl, rfl⟩
  | futexTurn _ _ _ _ => exact ⟨rfl, rfl, rfl⟩

theorem Wakes.interrupt {k : Kernel} {e : Event} {which : Nat → Prop} (h : Wakes k e which) :
    e.interrupt = none := by
  cases h <;> rfl

/-- A task that does not exit has its registers saved by the event in which it calls `schedule`. -/
theorem Effect.saved {k k' : Kernel} {ns : List (Nat × Nat)} {c t : Nat} {e : Event} {regs : Registers}
    (h : Effect hw k ns c e k') (hc : k.sched.currentTask = some t)
    (hne : k.sched.currentTask ≠ k.sched.idleTask) (he : e.interrupt = some regs)
    (hkill : ∀ r, e ≠ .kill r) : Saved k'.sched t regs := by
  cases h with
  | addTask new => cases he
  | wake which hwakes =>
    rw [hwakes.interrupt] at he
    cases he
  | switch r context s henters hbefore hswitch =>
    obtain ⟨hcur, hidle, hint⟩ := henters.parts
    rw [hint] at he
    obtain rfl := Option.some.inj he
    apply hswitch.saved hbefore (hcur.trans hc)
    rw [hcur, hidle]
    exact hne
  | wait u pointer value r context hu hbefore hswitch =>
    have hint : (Event.futexWait pointer value value r).interrupt = some r := if_pos rfl
    rw [hint] at he
    obtain rfl := Option.some.inj he
    exact hswitch.saved hbefore hc hne
  | again pointer value expected r hunequal =>
    have hint : (Event.futexWait pointer value expected r).interrupt = none := if_neg hunequal
    rw [hint] at he
    cases he
  | kill u task q s r => exact absurd rfl (hkill r)
  | tcbSet pointer => cases he

/-- Without a call of `schedule` the current task stays. -/
theorem Effect.current {k k' : Kernel} {ns : List (Nat × Nat)} {c : Nat} {e : Event}
    (h : Effect hw k ns c e k') (he : e.interrupt = none) :
    k'.sched.currentTask = k.sched.currentTask ∧ k'.sched.idleTask = k.sched.idleTask := by
  cases h with
  | addTask new a c' _ hsched =>
    rw [hsched]
    exact ⟨rfl, rfl⟩
  | wake which _ hwoken =>
    rw [hwoken.frame]
    exact ⟨rfl, rfl⟩
  | switch r context s henters =>
    rw [henters.parts.2.2] at he
    cases he
  | wait u pointer value r =>
    have hint : (Event.futexWait pointer value value r).interrupt = some r := if_pos rfl
    rw [hint] at he
    cases he
  | again => exact ⟨rfl, rfl⟩
  | kill u task q s r => cases he
  | tcbSet pointer => exact ⟨rfl, rfl⟩

/-- Interrupts of devices find nobody to wake in an empty queue. -/
theorem wake_nobody {k k' : Kernel} {e : Event} (hdevice : e.isInterrupt = true) (he : e.interrupt = none)
    (hempty : k.sched.queue.front = none) (hs : k.step hw fuel e = .ok k') : k' = k := by
  have hloop : ∀ touch turns, wakeLoop touch turns k none = .ok k := by
    intro touch turns
    cases turns <;> rfl
  cases e with
  | timer regs => cases he
  | wakeIo kbEvent =>
    simp only [Kernel.step, wakeIo, hempty, hloop] at hs
    exact (Except.ok.inj hs).symm
  | wakeNet =>
    simp only [Kernel.step, wakeNet, hempty, hloop] at hs
    exact (Except.ok.inj hs).symm
  | _ => cases hdevice

end Kernel

namespace Cpu

open Scheduler

variable {hw : Platform} {fuel : Nat} {kernelMain idle : NewTask}

/-- What the scheduler is at each statement of the boot code, up to the time, and once tasks run. -/
inductive Boots (kernelMain idle : NewTask) : Code → Scheduler → Prop
  | createKernelTask (time : Nat) :
      Boots kernelMain idle .createKernelTask { blank with realTime := time }
  | createIdleTask (time : Nat) :
      Boots kernelMain idle (.createIdleTask 0) { (blank.create kernelMain).2 with realTime := time }
  | setCurrentTask (time : Nat) :
      Boots kernelMain idle (.setCurrentTask 0) { created kernelMain idle with realTime := time }
  | newNode (time : Nat) : Boots kernelMain idle (.newNode 0)
      { created kernelMain idle with realTime := time, currentTask := some 1 }
  | linkNode (time : Nat) : Boots kernelMain idle (.linkNode 0)
      { created kernelMain idle with
        realTime := time, currentTask := some 1, queue := (TaskList.new.newNode 0).2 }
  | setFront (time : Nat) : Boots kernelMain idle (.setFront 0)
      { created kernelMain idle with
        realTime := time
        currentTask := some 1
        queue := { (TaskList.new.newNode 0).2 with current := some 0 } }
  | hcf {s : Scheduler} {ns : List (Nat × Nat)} {c : Nat} (coherent : Coherent s ns c)
      (current : s.currentTask = s.idleTask) : Boots kernelMain idle .hcf s
  | task {s : Scheduler} {ns : List (Nat × Nat)} {c t : Nat} (coherent : Coherent s ns c)
      (current : s.currentTask = some t) : Boots kernelMain idle (.task t) s

def Consistent (kernelMain idle : NewTask) (m : Cpu) : Prop := Boots kernelMain idle m.code m.kernel.sched

/-- The interrupted code is the idle task, the boot code that has queued `kernel_main`, or a task
that exits. -/
def Excused (m : Cpu) (e : CpuEvent) : Prop :=
  m.code = .hcf ∨ (∃ t, m.code = .task t ∧ m.kernel.sched.idleTask = some t) ∨
    ∃ regs, e = .event (.kill regs)

/-- If `schedule` is called, it returns to the interrupted code, or the registers are saved in a task. -/
def Keeps (m : Cpu) (e : CpuEvent) (m' : Cpu) : Prop :=
  ∀ regs, m.scheduled e = some regs → (m'.code = m.code ∧ m'.kernel.loaded = some regs) ∨
    (∃ t, Kernel.Saved m'.kernel.sched t regs) ∨ m.Excused e

/-- The timer does not tick while the scheduler is half initialized. -/
def TicksOutside (m : Cpu) (e : CpuEvent) (_ : Cpu) : Prop :=
  ∀ regs, e = .event (.timer regs) → m.code.halfInitialized = false

theorem start_consistent (kernelMain idle : NewTask) : Consistent kernelMain idle start :=
  Boots.createKernelTask 0

/-- The statements of `add_task` put the first task into the queue. -/
theorem first_task_holds :
    (TaskList.setFront { (TaskList.new.newNode 0).2 with current := some 0 } 0).Holds [(0, 0)] 0 := by
  obtain ⟨q, hq, hholds⟩ := TaskList.addTask_empty TaskList.new_holds 0
  rw [TaskList.addTask_statements] at hq
  obtain rfl := Except.ok.inj hq
  exact hholds

theorem Consistent.bootStep {m m' : Cpu} (h : Consistent kernelMain idle m)
    (hs : m.bootStep kernelMain idle = .ok m') : Consistent kernelMain idle m' := by
  obtain ⟨⟨sched, events, futexes, futexHandles, tcb, loaded, waiting⟩, code⟩ := m
  have hboots : Boots kernelMain idle code sched := h
  cases hboots with
  | createKernelTask time =>
    cases hs
    exact Boots.createIdleTask time
  | createIdleTask time =>
    cases hs
    exact Boots.setCurrentTask time
  | setCurrentTask time =>
    cases hs
    exact Boots.newNode time
  | newNode time =>
    cases hs
    exact Boots.linkNode time
  | linkNode time =>
    cases hs
    exact Boots.setFront time
  | setFront time =>
    cases hs
    exact Boots.hcf (created_coherent kernelMain idle first_task_holds time) rfl
  | hcf coherent current =>
    cases hs
    exact Boots.hcf coherent current
  | task coherent current =>
    cases hs
    exact Boots.task coherent current

/-- In a coherent scheduler the code that runs is that of the current task, or the end of the boot
code, which lends the idle task its place. -/
def Runs (m : Cpu) : Prop :=
  m.code = .hcf ∧ m.kernel.sched.currentTask = m.kernel.sched.idleTask ∨
    ∃ t, m.code = .task t ∧ m.kernel.sched.currentTask = some t

theorem Runs.consistent {m : Cpu} (h : m.Runs) {ns : List (Nat × Nat)} {c : Nat}
    (hcoh : Coherent m.kernel.sched ns c) : Consistent kernelMain idle m := by
  unfold Consistent
  rcases h with ⟨hcode, hcur⟩ | ⟨t, hcode, hcur⟩
  · rw [hcode]
    exact Boots.hcf hcoh hcur
  · rw [hcode]
    exact Boots.task hcoh hcur

theorem scheduled_event (m : Cpu) (e : Kernel.Event) :
    m.scheduled (.event e) = if e.isInterrupt || m.calls then e.interrupt else none := rfl

theorem calls_task {m : Cpu} (h : m.calls = true) :
    ∃ t, m.code = .task t ∧ m.kernel.sched.idleTask ≠ some t := by
  unfold calls at h
  split at h
  next t hcode => exact ⟨t, hcode, of_decide_eq_true h⟩
  next => cases h

/-- Who calls the scheduler is the current task, and not the idle task. -/
theorem Runs.calling {m : Cpu} (h : m.Runs) (hcalls : m.calls = true) :
    ∃ t, m.code = .task t ∧ m.kernel.sched.currentTask = some t ∧ m.kernel.sched.idleTask ≠ some t := by
  obtain ⟨t, hcode, hidle⟩ := calls_task hcalls
  rcases h with ⟨hhcf, -⟩ | ⟨u, htask, hcur⟩
  · rw [hcode] at hhcf
    cases hhcf
  · rw [hcode] at htask
    obtain rfl := Code.task.inj htask
    exact ⟨_, hcode, hcur, hidle⟩

theorem Runs.caller {m : Cpu} (h : m.Runs) (hcalls : m.calls = true) :
    ∃ t, m.kernel.sched.currentTask = some t ∧ m.kernel.sched.currentTask ≠ m.kernel.sched.idleTask := by
  obtain ⟨t, -, hcur, hidle⟩ := h.calling hcalls
  refine ⟨t, hcur, ?_⟩
  rw [hcur]
  exact hidle.symm

theorem Runs.excused {m : Cpu} (h : m.Runs) (hcalls : ¬m.calls = true) (e : CpuEvent) : m.Excused e := by
  rcases h with ⟨hcode, -⟩ | ⟨t, hcode, -⟩
  · exact Or.inl hcode
  · refine Or.inr (Or.inl ⟨t, hcode, ?_⟩)
    unfold calls at hcalls
    rw [hcode] at hcalls
    simpa using hcalls

theorem Runs.event {m : Cpu} (h : m.Runs) {ns : List (Nat × Nat)} {c : Nat}
    (hcoh : Coherent m.kernel.sched ns c) {e : Kernel.Event} {k : Kernel}
    (hgate : (e.isInterrupt || m.calls) = true) (hk : m.kernel.step hw fuel e = .ok k) :
    Consistent kernelMain idle (m.afterEvent e k) ∧
      Keeps m (.event e) (m.afterEvent e k) := by
  have hkill : ∀ regs, e = .kill regs → m.kernel.sched.currentTask ≠ m.kernel.sched.idleTask := by
    rintro regs rfl
    obtain ⟨t, -, hne⟩ := h.caller hgate
    exact hne
  have heffect := Kernel.step_effect hcoh hkill hk
  obtain ⟨ns', c', hcoh'⟩ := heffect.coherent hcoh
  obtain ⟨i, itask, hidle, -⟩ := hcoh'.idle
  obtain ⟨u, utask, hcur, -⟩ := hcoh'.current_task
  have hresumed : m.resumed k = ⟨k, .task u⟩ := by
    unfold resumed
    rw [hidle, hcur]
  have hkernel : (m.afterEvent e k).kernel = k := by
    unfold afterEvent
    rw [hresumed]
    split <;> rfl
  constructor
  · unfold afterEvent
    split
    next =>
      rw [hresumed]
      exact Boots.task hcoh' hcur
    next hnone =>
      have he : e.interrupt = none := by simpa using hnone
      obtain ⟨hsame, hsameIdle⟩ := heffect.current he
      have hruns : Runs ⟨k, m.code⟩ := by
        unfold Runs
        rw [hsame, hsameIdle]
        exact h
      exact hruns.consistent hcoh'
  · intro regs hregs
    rw [scheduled_event, if_pos hgate] at hregs
    by_cases hcalls : m.calls = true
    · by_cases hexit : ∃ r, e = .kill r
      · obtain ⟨r, rfl⟩ := hexit
        exact Or.inr (Or.inr (Or.inr (Or.inr ⟨r, rfl⟩)))
      · obtain ⟨t, hc, hne⟩ := h.caller hcalls
        refine Or.inr (Or.inl ⟨t, ?_⟩)
        rw [hkernel]
        exact heffect.saved hc hne hregs fun r he => hexit ⟨r, he⟩
    · exact Or.inr (Or.inr (h.excused hcalls _))

/-- Until there is an idle task, only the time goes on. -/
theorem Boots.tick {code : Code} {s : Scheduler} (h : Boots kernelMain idle code s)
    (hidle : s.idleTask = none) (time : Nat) : Boots kernelMain idle code { s with realTime := time } := by
  cases h with
  | createKernelTask _ => exact Boots.createKernelTask time
  | createIdleTask _ => exact Boots.createIdleTask time
  | setCurrentTask _ => cases hidle
  | newNode _ => cases hidle
  | linkNode _ => cases hidle
  | setFront _ => cases hidle
  | hcf coherent _ =>
    obtain ⟨i, task, hi, -⟩ := coherent.idle
    rw [hidle] at hi
    cases hi
  | task coherent _ =>
    obtain ⟨i, task, hi, -⟩ := coherent.idle
    rw [hidle] at hi
    cases hi

/-- Before the first task is queued only interrupts happen, and none of them switches: the timer
does not because there is no idle task. -/
theorem Consistent.early {m : Cpu} (h : Consistent kernelMain idle m) {e : Kernel.Event} {k : Kernel}
    (hfront : m.kernel.sched.queue.front = none) (hdevice : e.isInterrupt = true)
    (hidle : ∀ regs, e = .timer regs → m.kernel.sched.idleTask = none)
    (hk : m.kernel.step hw fuel e = .ok k) :
    Consistent kernelMain idle (m.afterEvent e k) ∧ Keeps m (.event e) (m.afterEvent e k) := by
  cases hint : e.interrupt with
  | none =>
    obtain rfl := Kernel.wake_nobody hdevice hint hfront hk
    have hsame : m.afterEvent e m.kernel = m := by
      unfold afterEvent
      rw [hint]
      rfl
    rw [hsame]
    refine ⟨h, fun regs hregs => ?_⟩
    rw [scheduled_event, hdevice, hint] at hregs
    cases hregs
  | some regs =>
    obtain rfl : e = .timer regs := by
      cases e with
      | timer r => rw [Option.some.inj hint]
      | wakeIo _ => cases hint
      | wakeNet => cases hint
      | _ => cases hdevice
    have hnone := hidle regs rfl
    have hempty : m.kernel.sched.queue.isEmpty = true := by
      unfold TaskList.isEmpty
      rw [hfront]
      rfl
    have hhandler := @handler_uninitialized hw fuel _ hnone hempty regs
    obtain ⟨context, hresult, hframe⟩ := Kernel.resume_ok hk
    rw [hhandler] at hresult
    obtain ⟨hcontext, hsched⟩ := Prod.mk.inj (Except.ok.inj hresult)
    have hafter : m.afterEvent (.timer regs) k = ⟨k, m.code⟩ := by
      unfold afterEvent resumed
      rw [← hsched]
      simp only [hnone]
      rfl
    rw [hafter]
    constructor
    · unfold Consistent
      rw [← hsched]
      exact Boots.tick h hnone _
    · intro r hr
      rw [scheduled_event, hdevice, hint] at hr
      obtain rfl := Option.some.inj hr
      refine Or.inl ⟨rfl, ?_⟩
      rw [hframe, ← hcontext]

/-- The scheduler is coherent, or the queue is still empty; with an idle task it is then only half
initialized. -/
theorem Consistent.phase {m : Cpu} (h : Consistent kernelMain idle m) :
    (m.Runs ∧ ∃ ns c, Coherent m.kernel.sched ns c) ∨ m.kernel.sched.queue.front = none ∧
      m.calls = false ∧ (m.code.halfInitialized = true ∨ m.kernel.sched.idleTask = none) := by
  obtain ⟨⟨sched, events, futexes, futexHandles, tcb, loaded, waiting⟩, code⟩ := m
  have hboots : Boots kernelMain idle code sched := h
  cases hboots with
  | createKernelTask _ => exact Or.inr ⟨rfl, rfl, Or.inr rfl⟩
  | createIdleTask _ => exact Or.inr ⟨rfl, rfl, Or.inr rfl⟩
  | setCurrentTask _ => exact Or.inr ⟨rfl, rfl, Or.inl rfl⟩
  | newNode _ => exact Or.inr ⟨rfl, rfl, Or.inl rfl⟩
  | linkNode _ => exact Or.inr ⟨rfl, rfl, Or.inl rfl⟩
  | setFront _ => exact Or.inr ⟨rfl, rfl, Or.inl rfl⟩
  | hcf coherent current => exact Or.inl ⟨Or.inl ⟨rfl, current⟩, _, _, coherent⟩
  | task coherent current => exact Or.inl ⟨Or.inr ⟨_, rfl, current⟩, _, _, coherent⟩

theorem Consistent.half_initialized {m : Cpu} (h : Consistent kernelMain idle m)
    (hwindow : m.code.halfInitialized = true) : ∃ time current queue, TaskList.front queue = none ∧
      m.kernel.sched =
        { created kernelMain idle with realTime := time, currentTask := current, queue } := by
  obtain ⟨⟨sched, events, futexes, futexHandles, tcb, loaded, waiting⟩, code⟩ := m
  have hboots : Boots kernelMain idle code sched := h
  cases hboots with
  | setCurrentTask time => exact ⟨time, _, _, rfl, rfl⟩
  | newNode time => exact ⟨time, _, _, rfl, rfl⟩
  | linkNode time => exact ⟨time, _, _, rfl, rfl⟩
  | setFront time => exact ⟨time, _, _, rfl, rfl⟩
  | _ => cases hwindow

/-- A call that only writes the current task's fields. -/
theorem Consistent.adjusted {m : Cpu} (h : Consistent kernelMain idle m) (hcalls : m.calls = true)
    {sched : Scheduler} (hs : ∀ {ns c}, Coherent m.kernel.sched ns c →
      Coherent sched ns c ∧ sched.currentTask = m.kernel.sched.currentTask) :
    Consistent kernelMain idle { m with kernel := { m.kernel with sched } } := by
  rcases h.phase with ⟨hruns, ns, c, hcoh⟩ | ⟨-, hnone, -⟩
  · obtain ⟨hcoh', hcur⟩ := hs hcoh
    obtain ⟨t, hcode, ht, -⟩ := hruns.calling hcalls
    exact Runs.consistent (Or.inr ⟨t, hcode, hcur.trans ht⟩) hcoh'
  · rw [hcalls] at hnone
    cases hnone

theorem Consistent.event {m : Cpu} (h : Consistent kernelMain idle m) {e : Kernel.Event} {k : Kernel}
    (hgate : (e.isInterrupt || m.calls) = true)
    (hticks : ∀ regs, e = .timer regs → m.code.halfInitialized = false)
    (hk : m.kernel.step hw fuel e = .ok k) :
    Consistent kernelMain idle (m.afterEvent e k) ∧ Keeps m (.event e) (m.afterEvent e k) := by
  rcases h.phase with ⟨hruns, ns, c, hcoh⟩ | ⟨hfront, hcalls, hwindow⟩
  · exact hruns.event hcoh hgate hk
  · have hdevice : e.isInterrupt = true := by
      rw [hcalls, Bool.or_false] at hgate
      exact hgate
    refine h.early hfront hdevice (fun regs he => ?_) hk
    apply hwindow.resolve_left
    rw [hticks regs he]
    exact Bool.false_ne_true

theorem Consistent.step {m m' : Cpu} {e : CpuEvent} (h : Consistent kernelMain idle m)
    (hticks : TicksOutside m e m') (hs : m.step hw fuel kernelMain idle e = .ok m') :
    Consistent kernelMain idle m' ∧ Keeps m e m' := by
  cases e with
  | boot => exact ⟨h.bootStep hs, fun regs hregs => by cases hregs⟩
  | event e =>
    simp only [Cpu.step] at hs
    split at hs
    next hgate =>
      obtain ⟨k, hk, hs⟩ := Except.bind_eq_ok.mp hs
      cases hs
      exact h.event hgate (fun regs he => hticks regs (by rw [he])) hk
    next hgate =>
      cases hs
      refine ⟨h, fun regs hregs => ?_⟩
      rw [scheduled_event, if_neg hgate] at hregs
      cases hregs
  | setStatus status =>
    refine ⟨?_, fun regs hregs => by cases hregs⟩
    simp only [Cpu.step] at hs
    split at hs
    next hgate =>
      obtain ⟨sched, hsched, hs⟩ := Except.bind_eq_ok.mp hs
      cases hs
      obtain ⟨hcalls, hready⟩ := Bool.and_eq_true_iff.mp hgate
      exact h.adjusted hcalls fun hcoh => hcoh.setStatus (of_decide_eq_true hready) hsched
    next =>
      cases hs
      exact h
  | setDeadline ms =>
    refine ⟨?_, fun regs hregs => by cases hregs⟩
    simp only [Cpu.step] at hs
    split at hs
    next hcalls =>
      obtain ⟨sched, hsched, hs⟩ := Except.bind_eq_ok.mp hs
      cases hs
      exact h.adjusted hcalls fun hcoh => hcoh.setDeadline hsched
    next =>
      cases hs
      exact h

/-- In every run from the first statement on in which the timer does not tick between the
assignment of `idle_task` and the one of `queue.front`, no call of `schedule` discards a context
that still has work to do. -/
theorem boot_keeps_contexts {es : List CpuEvent}
    (h : Along (Cpu.step hw fuel kernelMain idle) TicksOutside start es) :
    Along (Cpu.step hw fuel kernelMain idle) Keeps start es := by
  apply Along.imp_of_keep _ (start_consistent kernelMain idle) h
  intro m e m' hm hticks hs
  exact hm.step hticks hs

/-- The condition is exact: a tick in between discards the boot code, which still has to queue
`kernel_main`. -/
theorem Consistent.tick_discards {m m' : Cpu} (h : Consistent kernelMain idle m)
    (hwindow : m.code.halfInitialized = true) {regs : Registers} (hmain : regs ≠ kernelMain.context)
    (hidle : regs ≠ idle.context)
    (hs : m.step hw fuel kernelMain idle (.event (.timer regs)) = .ok m') :
    ¬Keeps m (.event (.timer regs)) m' := by
  obtain ⟨time, current, queue, hfront, hsched⟩ := h.half_initialized hwindow
  obtain ⟨k, hk, hs⟩ := Except.bind_eq_ok.mp hs
  cases hs
  obtain ⟨context, hhandler, hframe⟩ := Kernel.resume_ok hk
  rw [hsched, handler_half_initialized kernelMain idle regs time current hfront] at hhandler
  obtain ⟨-, hafter⟩ := Prod.mk.inj (Except.ok.inj hhandler)
  have hcpu : m.afterEvent (.timer regs) k = ⟨k, .task 1⟩ := by
    unfold afterEvent resumed
    rw [← hafter]
    rfl
  rw [hcpu]
  intro hkeeps
  rcases hkeeps regs rfl with ⟨hcode, -⟩ | ⟨t, task, ht, hr⟩ | hcode | ⟨t, hcode, -⟩ | ⟨r, hcode⟩
  · rw [← hcode] at hwindow
    cases hwindow
  · rw [← hafter] at ht hr
    obtain ⟨old, ho, hctx⟩ : ∃ old, (created kernelMain idle).tasks.cell t = some old ∧
        task.context = old.context := by
      rcases CellStore.adjust_cell_cases ht with ⟨-, ho⟩ | ⟨rfl, old, ho, rfl⟩
      · exact ⟨task, ho, rfl⟩
      · exact ⟨old, ho, rfl⟩
    rw [hctx] at hr
    rcases created_context ho hr with hr | hr
    · exact hmain hr
    · exact hidle hr
  · rw [hcode] at hwindow
    cases hwindow
  · rw [hcode] at hwindow
    cases hwindow
  · cases hcode

/-- Ticks before, when `kernel_main` waits in the queue, and when it runs. -/
theorem ticks_around_boot : Along (Cpu.step ⟨id, 1, 0⟩ 0 plainTask plainTask) Keeps start
    [.event (.timer Kernel.atSeven), .boot, .boot, .boot, .boot, .boot, .boot, .event (.timer Kernel.atSeven),
      .event (.timer Kernel.atSeven)] := by
  have hboot : ∀ m m' : Cpu, TicksOutside m .boot m' := fun _ _ _ h => CpuEvent.noConfusion h
  apply boot_keeps_contexts
  refine Along.cons rfl (fun _ _ => rfl) ?_
  refine Along.cons rfl (hboot _ _) (Along.cons rfl (hboot _ _) (Along.cons rfl (hboot _ _) ?_))
  refine Along.cons rfl (hboot _ _) (Along.cons rfl (hboot _ _) (Along.cons rfl (hboot _ _) ?_))
  exact Along.cons rfl (fun _ _ => rfl) (Along.cons rfl (fun _ _ => rfl) trivial)

/-- The timer ticks right after `idle_task` is assigned. -/
theorem tick_discards_boot :
    ¬∀ (hw : Platform) (fuel : Nat) (kernelMain idle : NewTask) (es : List CpuEvent),
      Along (Cpu.step hw fuel kernelMain idle) Keeps start es := by
  intro h
  have hrun := h ⟨id, 1, 0⟩ 0 plainTask plainTask [.boot, .boot, .event (.timer Kernel.atSeven)]
  obtain ⟨-, hrun⟩ := hrun _ rfl
  obtain ⟨-, hrun⟩ := hrun _ rfl
  obtain ⟨hkeeps, -⟩ := hrun _ rfl
  have hne : Kernel.atSeven ≠ plainTask.context := by
    intro he
    exact absurd (congrArg Registers.iretRip he) (by decide)
  exact @Consistent.tick_discards ⟨id, 1, 0⟩ 0 plainTask plainTask _ _ (by exact Boots.setCurrentTask 0)
    (by rfl) _ hne hne (by rfl) hkeeps

end Cpu

end UmbraOS
