import UmbraOS.KernelSteps

namespace UmbraOS

namespace Kernel

open Scheduler

variable {hw : Platform} {fuel : Nat}

/-- The registers at the interrupt that an event ends in. -/
def Event.interrupt : Event → Option Registers
  | .timer regs => some regs
  | .yield regs => some regs
  | .sleep _ regs => some regs
  | .awaitIo regs => some regs
  | .kill regs => some regs
  | .futexWait _ value expected regs => if value = expected then some regs else none
  | .futexTurn _ _ regs => some regs
  | _ => none

/-- The register files that tasks start with and that they were interrupted with, each with its
task, newest first. -/
abbrev Log := List (Nat × Registers)

def record (k : Kernel) (log : Log) (e : Event) : Log :=
  match e with
  | .addTask new => (k.sched.tasks.next, new.context) :: log
  | e =>
    match e.interrupt, k.sched.currentTask with
    | some regs, some t => (t, regs) :: log
    | _, _ => log

/-- The registers that a task was last interrupted with, or those it starts with. -/
def lastOf (log : Log) (t : Nat) : Option Registers := (log.find? fun p => p.1 = t).map Prod.snd

def logStep (hw : Platform) (fuel : Nat) (p : Kernel × Log) (e : Event) :
    Except Trap (Kernel × Log) := do
  let k ← p.1.step hw fuel e
  return (k, record p.1 p.2 e)

theorem logStep_ok {p p' : Kernel × Log} {e : Event} (h : logStep hw fuel p e = .ok p') :
    p.1.step hw fuel e = .ok p'.1 ∧ p'.2 = record p.1 p.2 e := by
  obtain ⟨k, hk, h⟩ := Except.bind_eq_ok.mp h
  cases h
  exact ⟨hk, rfl⟩

theorem lastOf_cons_self (log : Log) (t : Nat) (r : Registers) :
    lastOf ((t, r) :: log) t = some r := by
  rw [lastOf, List.find?_cons_of_pos (by simp), Option.map_some]

theorem lastOf_cons_ne {log : Log} {t u : Nat} (r : Registers) (h : u ≠ t) :
    lastOf ((u, r) :: log) t = lastOf log t := by
  rw [lastOf, List.find?_cons_of_neg (by simpa using h), lastOf]

/-- The registers in the context of a task. -/
def Saved (s : Scheduler) (t : Nat) (r : Registers) : Prop :=
  ∃ task, s.tasks.cell t = some task ∧ s.contexts.cell task.context = some r

theorem saved_adjust {s : Scheduler} (a reads : Nat) {f : Task → Task}
    (hf : ∀ x, (f x).context = x.context) {t : Nat} {r : Registers}
    (h : Saved { s with tscReads := reads, tasks := s.tasks.adjust a f } t r) : Saved s t r := by
  obtain ⟨task, ht, hr⟩ := h
  rcases CellStore.adjust_cell_cases ht with ⟨-, ho⟩ | ⟨rfl, old, ho, rfl⟩
  · exact ⟨task, ho, hr⟩
  · rw [hf] at hr
    exact ⟨old, ho, hr⟩

/-- `schedule` puts the registers of the interrupted task in its context, unless the queue is empty
or the task is `Ready`, and leaves the other contexts as they were. -/
theorem saved_switched {s s' : Scheduler} {ns : List (Nat × Nat)} {t₀ : Nat} {task₀ : Task}
    {regs context : Registers} (hs : Switched hw regs context s s' ns)
    (hcontext : ∀ t task, s.tasks.cell t = some task → ∃ r, s.contexts.cell task.context = some r)
    (hapart : ∀ t u a b, s.tasks.cell t = some a → s.tasks.cell u = some b → t ≠ u →
      a.context ≠ b.context) (hc : s.currentTask = some t₀) (ht₀ : s.tasks.cell t₀ = some task₀)
    {t : Nat} {r : Registers} (h : Saved s' t r) :
    (t = t₀ ∧ r = regs) ∧ ns ≠ [] ∧ task₀.status ≠ .ready ∨
      Saved s t r ∧ (t = t₀ → ns = [] ∨ task₀.status = .ready) := by
  obtain ⟨task', ht', hr⟩ := h
  have hroused := hs.task t
  rw [ht'] at hroused
  obtain ⟨task, ht, hctx, _⟩ := hroused.parts
  rw [hctx] at hr
  rcases hs.saves with ⟨hnil, he⟩ | ⟨hbusy, u, task, hu, htask, he⟩
  · rw [he] at hr
    exact Or.inr ⟨⟨_, ht, hr⟩, fun _ => Or.inl hnil⟩
  · rw [hc] at hu
    obtain rfl := Option.some.inj hu
    rw [ht₀] at htask
    obtain rfl := Option.some.inj htask
    split at he
    next hready =>
      rw [he] at hr
      exact Or.inr ⟨⟨_, ht, hr⟩, fun _ => Or.inr hready⟩
    next hstarted =>
      rw [he] at hr
      by_cases htt : t = t₀
      · subst htt
        rw [ht] at ht₀
        obtain rfl := Option.some.inj ht₀
        obtain ⟨old, ho⟩ := hcontext t _ ht
        rw [CellStore.adjust_cell_self _ ho] at hr
        exact Or.inl ⟨⟨rfl, (Option.some.inj hr).symm⟩, hbusy, hstarted⟩
      · rw [CellStore.adjust_cell_ne _ _ (hapart t t₀ _ _ ht ht₀ htt)] at hr
        exact Or.inr ⟨⟨_, ht, hr⟩, fun he => absurd he htt⟩

/-- Only the idle task is interrupted without its registers being saved. -/
theorem idle_of_unsaved {s : Scheduler} {ns : List (Nat × Nat)} {c t : Nat} {task : Task}
    (h : Coherent s ns c) (hc : s.currentTask = some t) (ht : s.tasks.cell t = some task)
    (hunsaved : ns = [] ∨ task.status = .ready) : s.idleTask = some t := by
  rw [← hc]
  rcases hunsaved with hnil | hready
  · rcases h.looks with hl | ⟨hne, _⟩
    · exact hl.symm
    · exact absurd hnil hne
  · by_contra hne
    exact h.started t task hc (Ne.symm hne) ht hready

theorem saved_woken {s s' : Scheduler} {which : Nat → Prop} (h : Woken s s' which) {t : Nat}
    {r : Registers} (hr : Saved s' t r) : Saved s t r := by
  obtain ⟨task, ht, hr⟩ := hr
  obtain ⟨old, ho, hold, _⟩ := h.parts ht
  rw [hold, show s'.contexts = s.contexts by rw [h.frame]] at hr
  exact ⟨old, ho, hr⟩

/-- A new task starts with its own context, and the others keep theirs. -/
theorem saved_create {s s' : Scheduler} {ns : List (Nat × Nat)} {c : Nat} (h : Coherent s ns c)
    {new : NewTask} (hs : s' = { (s.create new).2 with queue := s'.queue }) {t : Nat} {r : Registers}
    (hr : Saved s' t r) : t = s.tasks.next ∧ r = new.context ∨ t ≠ s.tasks.next ∧ Saved s t r := by
  have hctx : s'.contexts = s.contexts.alloc new.context := by rw [hs]; rfl
  have htasks : s'.tasks = s.tasks.alloc
      ⟨.ready, s.spaces.next, s.contexts.next, new.tscSleep⟩ := by rw [hs]; rfl
  obtain ⟨task, ht, hr⟩ := hr
  rw [htasks, CellStore.alloc_cell] at ht
  split at ht
  next hnew =>
    obtain rfl := Option.some.inj ht
    rw [hctx, CellStore.alloc_cell_self] at hr
    exact Or.inl ⟨hnew, (Option.some.inj hr).symm⟩
  next hold =>
    obtain ⟨r₀, hr₀⟩ := h.context t task ht
    rw [hctx, CellStore.alloc_cell_of_live _ hr₀] at hr
    obtain rfl := Option.some.inj hr
    exact Or.inr ⟨hold, task, ht, hr₀⟩

theorem saved_init {idle : NewTask} {t : Nat} {r : Registers} (h : Saved (Scheduler.init idle) t r) :
    t = 0 ∧ r = idle.context := by
  obtain ⟨task, ht, hr⟩ := h
  by_cases h0 : t = 0
  · subst h0
    cases ht
    cases hr
    exact ⟨rfl, rfl⟩
  · have hnone : (Scheduler.init idle).tasks.cell t = none := by
      rw [Scheduler.init, create, CellStore.alloc_cell,
        if_neg (show t ≠ blank.tasks.next from h0)]
      rfl
    rw [hnone] at ht
    cases ht

/-- What the log says of a context: it is the newest entry of its task, and for the idle task,
whose registers are not always saved, one of its entries. -/
def Matches (s : Scheduler) (log : Log) (t : Nat) (r : Registers) : Prop :=
  (t, r) ∈ log ∧ (s.idleTask ≠ some t → lastOf log t = some r)

/-- Every context matches the log, but for the one of a running task other than the idle task. -/
def Kept (s : Scheduler) (log : Log) : Prop :=
  ∀ t r, Saved s t r → s.idleTask = some t ∨ s.currentTask ≠ some t → Matches s log t r

structure Tracked (k : Kernel) (log : Log) : Prop where
  kept : Kept k.sched log
  loaded : ∀ t r, k.loaded = some r → k.sched.currentTask = some t → Matches k.sched log t r

theorem Matches.cons {s : Scheduler} {log : Log} {t u : Nat} {r : Registers}
    (h : Matches s log t r) (hu : s.idleTask = some u ∨ u ≠ t) (r' : Registers) :
    Matches s ((u, r') :: log) t r := by
  refine ⟨List.mem_cons_of_mem _ h.1, fun hidle => ?_⟩
  have hut : u ≠ t := by
    rcases hu with hu | hu
    · rintro rfl
      exact hidle hu
    · exact hu
  rw [lastOf_cons_ne r' hut]
  exact h.2 hidle

theorem Matches.head (s : Scheduler) (log : Log) (t : Nat) (r : Registers) :
    Matches s ((t, r) :: log) t r :=
  ⟨List.mem_cons_self, fun _ => lastOf_cons_self log t r⟩

theorem Matches.congr {s s' : Scheduler} {log : Log} {t : Nat} {r : Registers}
    (h : Matches s log t r) (hi : s'.idleTask = s.idleTask) : Matches s' log t r := by
  unfold Matches
  rw [hi]
  exact h

/-- After `schedule` every context matches the log, the one of the interrupted task because it
was saved, unless that task is the idle task. -/
theorem Kept.switched {s s' : Scheduler} {ns : List (Nat × Nat)} {c t₀ : Nat} {log : Log}
    {regs context : Registers} (h : Kept s log) (hcoh : Coherent s ns c)
    (hc : s.currentTask = some t₀) (hs : Switched hw regs context s s' ns) :
    ∀ t r, Saved s' t r → Matches s' ((t₀, regs) :: log) t r := by
  intro t r hsaved
  obtain ⟨u, task₀, hu, ht₀⟩ := hcoh.current_task
  rw [hc] at hu
  obtain rfl := Option.some.inj hu
  have hapart : ∀ t u a b, s.tasks.cell t = some a → s.tasks.cell u = some b → t ≠ u →
      a.context ≠ b.context := fun t u a b ha hb hne => (hcoh.apart t u a b ha hb hne).1
  rcases saved_switched hs hcoh.context hapart hc ht₀ hsaved with ⟨⟨rfl, rfl⟩, _⟩ | ⟨hold, hunsaved⟩
  · exact Matches.head s' log t r
  · by_cases htt : t = t₀
    · subst htt
      have hidle := idle_of_unsaved hcoh hc ht₀ (hunsaved rfl)
      exact ((h t r hold (Or.inl hidle)).cons (Or.inl hidle) regs).congr hs.idleTask
    · have hmatch : Matches s log t r := by
        refine h t r hold (Or.inr fun hct => htt ?_)
        rw [hc] at hct
        exact (Option.some.inj hct).symm
      exact (hmatch.cons (Or.inr (Ne.symm htt)) regs).congr hs.idleTask

theorem Kept.adjust {s : Scheduler} {log : Log} (h : Kept s log) (a reads : Nat) {f : Task → Task}
    (hf : ∀ x, (f x).context = x.context) :
    Kept { s with tscReads := reads, tasks := s.tasks.adjust a f } log := by
  intro t r hsaved hwhere
  exact h t r (saved_adjust a reads hf hsaved) hwhere

theorem Enters.kept {k : Kernel} {e : Event} {regs : Registers} {s : Scheduler} {log : Log}
    (he : Enters hw k e regs s) (h : Kept k.sched log) : Kept s log ∧
      s.currentTask = k.sched.currentTask ∧ e.interrupt = some regs := by
  cases he with
  | timer => exact ⟨h, rfl, rfl⟩
  | yield => exact ⟨h, rfl, rfl⟩
  | sleep ms _ _ => exact ⟨h.adjust _ _ fun _ => rfl, rfl, rfl⟩
  | awaitIo _ _ => exact ⟨h.adjust _ k.sched.tscReads fun _ => rfl, rfl, rfl⟩
  | futexTurn _ _ _ _ => exact ⟨h.adjust _ k.sched.tscReads fun _ => rfl, rfl, rfl⟩

theorem record_interrupt {k : Kernel} {log : Log} {e : Event} {regs : Registers} {t : Nat}
    (he : e.interrupt = some regs) (hc : k.sched.currentTask = some t) :
    record k log e = (t, regs) :: log := by
  cases e with
  | addTask new => cases he
  | _ => simp only [record, he, hc]

theorem record_none {k : Kernel} {log : Log} {e : Event} (he : e.interrupt = none)
    (hadd : ∀ new, e ≠ .addTask new) : record k log e = log := by
  cases e with
  | addTask new => exact absurd rfl (hadd new)
  | _ => simp only [record, he]

theorem Wakes.record {k : Kernel} {e : Event} {which : Nat → Prop} (hw : Wakes k e which)
    (log : Log) : record k log e = log := by
  cases hw <;> rfl

theorem Tracked.of_switched {k' : Kernel} {s : Scheduler} {log : Log} {ns : List (Nat × Nat)}
    {c t₀ : Nat} {regs context : Registers} (h : Kept s log) (hcoh : Coherent s ns c)
    (hc : s.currentTask = some t₀) (hs : Switched hw regs context s k'.sched ns)
    (hl : k'.loaded = some context) : Tracked k' ((t₀, regs) :: log) := by
  have hmatch := h.switched hcoh hc hs
  refine ⟨fun t r hsaved _ => hmatch t r hsaved, fun t r hr hct => ?_⟩
  obtain ⟨u, task, hu, ht, hcell⟩ := hs.loads
  rw [hct] at hu
  obtain rfl := Option.some.inj hu
  rw [hl] at hr
  obtain rfl := Option.some.inj hr
  exact hmatch t _ ⟨task, ht, hcell⟩

theorem Tracked.woken {k k' : Kernel} {log : Log} {which : Nat → Prop} (h : Tracked k log)
    (hs : Woken k.sched k'.sched which) (hl : k'.loaded = k.loaded) : Tracked k' log := by
  have hframe := hs.frame
  have hidle : k'.sched.idleTask = k.sched.idleTask := by rw [hframe]
  have hcur : k'.sched.currentTask = k.sched.currentTask := by rw [hframe]
  refine ⟨fun t r hsaved hwhere => ?_, fun t r hr hc => ?_⟩
  · rw [hidle, hcur] at hwhere
    exact (h.kept t r (saved_woken hs hsaved) hwhere).congr hidle
  · rw [hl] at hr
    rw [hcur] at hc
    exact (h.loaded t r hr hc).congr hidle

/-- A new task starts with the registers that are put in the log. -/
theorem Tracked.addTask {k k' : Kernel} {log : Log} {ns : List (Nat × Nat)} {c : Nat}
    (h : Tracked k log) (hcoh : Coherent k.sched ns c) {new : NewTask}
    (hs : k'.sched = { (k.sched.create new).2 with queue := k'.sched.queue })
    (hl : k'.loaded = k.loaded) : Tracked k' ((k.sched.tasks.next, new.context) :: log) := by
  have hidle : k'.sched.idleTask = k.sched.idleTask := by rw [hs]; rfl
  have hcur : k'.sched.currentTask = k.sched.currentTask := by rw [hs]; rfl
  refine ⟨fun t r hsaved hwhere => ?_, fun t r hr hc => ?_⟩
  · rcases saved_create hcoh hs hsaved with ⟨rfl, rfl⟩ | ⟨hne, hold⟩
    · exact Matches.head _ log _ _
    · rw [hidle, hcur] at hwhere
      exact ((h.kept t r hold hwhere).cons (Or.inr (Ne.symm hne)) _).congr hidle
  · rw [hl] at hr
    rw [hcur] at hc
    obtain ⟨u, task, hu, ht⟩ := hcoh.current_task
    rw [hc] at hu
    obtain rfl := Option.some.inj hu
    have hlt := CellStore.lt_next ht
    exact ((h.loaded t r hr hc).cons (Or.inr (by omega)) _).congr hidle

/-- The kernel and its log between two events. -/
structure Logged (p : Kernel × Log) : Prop where
  inOrder : ∃ ns c, Coherent p.1.sched ns c
  tracked : Tracked p.1 p.2

theorem init_logged (idle : NewTask) : Logged (init idle, [(0, idle.context)]) := by
  refine ⟨⟨[], 0, init_coherent idle⟩, ⟨fun t r hsaved _ => ?_, fun t r hr => ?_⟩⟩
  · obtain ⟨rfl, rfl⟩ := saved_init hsaved
    exact Matches.head _ [] 0 _
  · cases hr

theorem Logged.step {p p' : Kernel × Log} {e : Event} (h : Logged p)
    (hkill : ∀ regs, e ≠ .kill regs) (hs : logStep hw fuel p e = .ok p') : Logged p' := by
  obtain ⟨k, log⟩ := p
  obtain ⟨k', log'⟩ := p'
  obtain ⟨hstep, rfl⟩ := logStep_ok hs
  obtain ⟨⟨ns, c, hcoh⟩, htracked⟩ := h
  obtain ⟨t, task, hc, ht⟩ := hcoh.current_task
  have heffect := step_effect hcoh (fun regs he => absurd he (hkill regs)) hstep
  refine ⟨heffect.coherent hcoh, ?_⟩
  cases heffect with
  | addTask new a c' _ hsched hframe =>
    apply htracked.addTask hcoh hsched
    rw [hframe]
  | wake which hwakes hwoken hframe =>
    rw [hwakes.record]
    apply htracked.woken hwoken
    rw [hframe]
  | switch regs context s henters hbefore hswitch hframe =>
    obtain ⟨hkept, hcur, hint⟩ := henters.kept htracked.kept
    rw [record_interrupt hint hc]
    apply Tracked.of_switched hkept hbefore (hcur.trans hc) hswitch
    rw [hframe]
  | wait u pointer value regs context hu hbefore hswitch list hframe =>
    have hint : (Event.futexWait pointer value value regs).interrupt = some regs := if_pos rfl
    rw [record_interrupt hint hc]
    have hkept : Kept (k.sched.awaited u) log :=
      htracked.kept.adjust u k.sched.tscReads fun _ => rfl
    apply Tracked.of_switched hkept hbefore hc hswitch
    rw [hframe]
  | again pointer value expected regs hne =>
    have hint : (Event.futexWait pointer value expected regs).interrupt = none := if_neg hne
    rw [record_none hint (fun _ he => by cases he)]
    exact htracked
  | kill u task' q s regs => exact absurd rfl (hkill regs)
  | tcbSet pointer => exact ⟨htracked.kept, htracked.loaded⟩

/-- In every run without an exit, whenever a queued task is resumed, its registers are the ones
it was last interrupted with, or those it started with if it never ran; no task, and not the
idle task either, is resumed with registers that were another task's. -/
theorem resumed_with_own_registers {idle : NewTask} {es : List Event} {k : Kernel} {log : Log}
    (hkill : ∀ regs, Event.kill regs ∉ es)
    (hrun : run (logStep hw fuel) (init idle, [(0, idle.context)]) es = .ok (k, log))
    {t : Nat} {r : Registers} (hc : k.sched.currentTask = some t) (hr : k.loaded = some r) :
    (t, r) ∈ log ∧ (k.sched.idleTask ≠ some t → lastOf log t = some r) := by
  have hnone : Along (logStep hw fuel) (fun _ e _ => ∀ regs, e ≠ .kill regs)
      (init idle, [(0, idle.context)]) es := by
    apply Along.of_forall
    rintro e he _ _ regs rfl
    exact hkill regs he
  have hlogged : Logged (k, log) := by
    apply hnone.invariant _ (init_logged idle) hrun
    intro p e p' hp hmeets hs
    exact hp.step hmeets hs
  exact hlogged.tracked.loaded t r hr hc

def atSeven : Registers := { zeroRegisters with iretRip := 7 }

/-- A task that was interrupted at instruction 7 is resumed there after it waited for input. -/
theorem waiting_task_resumed : ∃ k log, run (logStep ⟨id, 1, 0⟩ 4)
      (init plainTask, [(0, plainTask.context)]) [.addTask plainTask, .timer zeroRegisters,
        .awaitIo atSeven, .wakeNet, .timer zeroRegisters] = .ok (k, log) ∧
    k.sched.currentTask = some 1 ∧ k.loaded = some atSeven ∧ (1, atSeven) ∈ log ∧
    (k.sched.idleTask ≠ some 1 → lastOf log 1 = some atSeven) := by
  have hkill : ∀ regs, Event.kill regs ∉ [.addTask plainTask, .timer zeroRegisters,
      .awaitIo atSeven, .wakeNet, .timer zeroRegisters] := by
    intro regs
    simp
  obtain ⟨k, log, hrun, hc, hr⟩ : ∃ k log, run (logStep ⟨id, 1, 0⟩ 4)
      (init plainTask, [(0, plainTask.context)]) [.addTask plainTask, .timer zeroRegisters,
        .awaitIo atSeven, .wakeNet, .timer zeroRegisters] = .ok (k, log) ∧
      k.sched.currentTask = some 1 ∧ k.loaded = some atSeven := ⟨_, _, rfl, rfl, rfl⟩
  exact ⟨k, log, hrun, hc, hr, resumed_with_own_registers hkill hrun hc hr⟩

end Kernel

end UmbraOS
