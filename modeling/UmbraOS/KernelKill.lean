import UmbraOS.KernelSteps
import UmbraOS.TaskListRing

namespace UmbraOS

namespace Kernel

open Scheduler

variable {hw : Platform} {fuel : Nat}

def InOrder (k : Kernel) : Prop := ∃ ns c, Coherent k.sched ns c

/-- A task that exits is not the idle task. -/
def KillsQueued (k : Kernel) (e : Event) (_ : Kernel) : Prop :=
  ∀ regs, e = .kill regs → k.sched.currentTask ≠ k.sched.idleTask

theorem init_inOrder (idle : NewTask) : (init idle).InOrder := ⟨[], 0, init_coherent idle⟩

theorem InOrder.step {k k' : Kernel} {e : Event} (h : k.InOrder) (hkill : KillsQueued k e k')
    (hs : k.step hw fuel e = .ok k') : k'.InOrder := by
  obtain ⟨ns, c, hcoh⟩ := h
  exact (step_effect hcoh hkill hs).coherent hcoh

theorem run_inOrder {idle : NewTask} {es : List Event} {k : Kernel}
    (hkill : Along (step hw fuel) KillsQueued (init idle) es)
    (hrun : run (step hw fuel) (init idle) es = .ok k) : k.InOrder := by
  apply hkill.invariant _ (init_inOrder idle) hrun
  intro s e t hinv hmeets hs
  exact hinv.step hmeets hs

/-- The queue `ns` loses the node at `c`, which is the one of the task `t`, and no other. -/
structure Loses (queue queue' : TaskList) (ns : List (Nat × Nat)) (c t : Nat) : Prop where
  before : queue.reached = .ok ns
  removed : ∃ a, queue.current = some a ∧ ns[c]? = some (a, t)
  after : queue'.reached = .ok (ns.eraseIdx c)
  gone : ∀ p ∈ ns.eraseIdx c, p.2 ≠ t

/-- In every run in which the tasks that exit are queued ones, a task that runs and is not the
idle task is the one stored in `queue.current`; the `remove_current` of its `kill_and_yield` takes
its node out of the queue and keeps the others in their order, and the `schedule` after it, where
that one returns, leaves them so. -/
theorem kill_takes_caller {idle : NewTask} {es : List Event} {k : Kernel}
    (hkill : Along (step hw fuel) KillsQueued (init idle) es)
    (hrun : run (step hw fuel) (init idle) es = .ok k)
    (hne : k.sched.currentTask ≠ k.sched.idleTask) :
    ∃ t ns c, k.sched.currentTask = some t ∧ k.sched.queue.getCurrent = .ok t ∧
      (∃ q, k.sched.queue.removeCurrent = .ok q ∧ Loses k.sched.queue q ns c t) ∧
      ∀ regs k', k.killAndYield hw fuel regs = .ok k' →
        Loses k.sched.queue k'.sched.queue ns c t := by
  obtain ⟨ns, c, hcoh⟩ := run_inOrder hkill hrun
  obtain ⟨t, task, hc, ht⟩ := hcoh.current_task
  obtain ⟨hcurrent, a, hp⟩ := hcoh.getCurrent hc hne
  have hloses : ∀ {queue' : TaskList}, queue'.reached = .ok (ns.eraseIdx c) →
      Loses k.sched.queue queue' ns c t := by
    intro queue' hafter
    refine ⟨hcoh.queue.reached, ⟨a, ?_, hp⟩, hafter, hcoh.erased_ne hp⟩
    rw [hcoh.queue.current]
    exact TaskList.addr_of_getElem? hp
  refine ⟨t, ns, c, hc, hcurrent, ?_, fun regs k' hs => hloses ?_⟩
  · obtain ⟨hbusy, _⟩ := hcoh.looks.resolve_left hne
    obtain ⟨q, hq, hholds⟩ := TaskList.removeCurrent_holds hcoh.queue hbusy
    exact ⟨q, hq, hloses hholds.reached⟩
  · cases killAndYield_effect hcoh hne hs with
    | wake which wakes => cases wakes
    | switch regs context s enters => cases enters
    | kill t task q s regs context _ _ _ _ hafter hframe =>
      obtain ⟨c', hafter⟩ := hafter
      rw [hframe]
      exact hafter.queue.reached

/-- Two tasks are added, a timer tick resumes the newer one, and it exits to the older one. -/
theorem newer_task_killed : ∃ k, run (step ⟨id, 1, 0⟩ 0) (init plainTask)
      [.addTask plainTask, .addTask plainTask, .timer zeroRegisters] = .ok k ∧
    (∃ k', k.killAndYield ⟨id, 1, 0⟩ 0 zeroRegisters = .ok k' ∧ k.sched.currentTask = some 2 ∧
      k'.sched.currentTask = some 1) ∧
    ∃ t ns c, k.sched.currentTask = some t ∧ k.sched.queue.getCurrent = .ok t ∧
      (∃ q, k.sched.queue.removeCurrent = .ok q ∧ Loses k.sched.queue q ns c t) ∧
      ∀ regs k', k.killAndYield ⟨id, 1, 0⟩ 0 regs = .ok k' →
        Loses k.sched.queue k'.sched.queue ns c t := by
  have hkill : Along (step ⟨id, 1, 0⟩ 0) KillsQueued (init plainTask)
      [.addTask plainTask, .addTask plainTask, .timer zeroRegisters] :=
    fun _ _ => ⟨fun _ h => Event.noConfusion h, fun _ _ => ⟨fun _ h => Event.noConfusion h,
      fun _ _ => ⟨fun _ h => Event.noConfusion h, trivial⟩⟩⟩
  exact ⟨_, rfl, ⟨_, rfl, rfl, rfl⟩, kill_takes_caller hkill rfl (by decide)⟩

end Kernel

end UmbraOS
