import UmbraOS.KernelSteps

namespace UmbraOS

namespace Kernel

open Scheduler

variable {hw : Platform} {fuel : Nat}

/-- The calls a task makes itself follow one another: inside the loop of `sys_futex_wait` it can
only go round that loop, and outside of it only make other calls. -/
def Own (k : Kernel) : Event → Prop
  | .yield _ | .sleep _ _ | .awaitIo _ | .kill _ | .futexWait _ _ _ _ | .futexWake _ | .tcbSet _ =>
    ∀ t, k.sched.currentTask = some t → k.waiting t = none
  | .futexTurn task pointer _ =>
    k.sched.currentTask = some task ∧ k.waiting task = some pointer
  | _ => True

/-- The deadlines of the tasks that went to sleep, until `schedule` reads a time stamp at or
above them. -/
abbrev Asleep := Nat → Option Nat

/-- One of the time stamps from `lo` to `hi` is at or above the deadline. -/
def passed (hw : Platform) (lo hi deadline : Nat) : Bool :=
  (List.range hi).any fun i => decide (lo ≤ i) && decide (deadline ≤ hw.tsc i)

/-- The deadlines after an event: a sleep sets one, and the time stamps that `schedule` reads
end those they reach. The stamp that `sleep` itself reads is not one of `schedule`. -/
def sleepers (hw : Platform) (k k' : Kernel) (asleep : Asleep) : Event → Asleep
  | .sleep ms _ => fun t =>
    (if k.sched.currentTask = some t then some (wakeTime hw k.sched ms) else asleep t).filter
      fun deadline => !passed hw (k.sched.tscReads + 1) k'.sched.tscReads deadline
  | _ => fun t => (asleep t).filter fun deadline =>
      !passed hw k.sched.tscReads k'.sched.tscReads deadline

def sleepStep (hw : Platform) (fuel : Nat) (p : Kernel × Asleep) (e : Event) :
    Except Trap (Kernel × Asleep) := do
  let k ← p.1.step hw fuel e
  return (k, sleepers hw p.1 k p.2 e)

theorem sleepStep_ok {p p' : Kernel × Asleep} {e : Event} (h : sleepStep hw fuel p e = .ok p') :
    p.1.step hw fuel e = .ok p'.1 ∧ p'.2 = sleepers hw p.1 p'.1 p.2 e := by
  obtain ⟨k, hk, h⟩ := Except.bind_eq_ok.mp h
  cases h
  exact ⟨hk, rfl⟩

theorem passed_iff {lo hi deadline : Nat} :
    passed hw lo hi deadline = true ↔ ∃ i, lo ≤ i ∧ i < hi ∧ deadline ≤ hw.tsc i := by
  unfold passed
  rw [List.any_eq_true]
  constructor
  · intro h
    obtain ⟨i, hi, h⟩ := h
    rw [Bool.and_eq_true, decide_eq_true_eq, decide_eq_true_eq] at h
    exact ⟨i, h.1, List.mem_range.mp hi, h.2⟩
  · intro h
    obtain ⟨i, hlo, hhi, hle⟩ := h
    refine ⟨i, List.mem_range.mpr hhi, ?_⟩
    rw [Bool.and_eq_true, decide_eq_true_eq, decide_eq_true_eq]
    exact ⟨hlo, hle⟩

/-- A task is in its sleep until the deadline, and does not run. -/
def Sleeps (s : Scheduler) (t deadline : Nat) : Prop :=
  ∃ task, s.tasks.cell t = some task ∧ task.status = .sleeping ∧ task.tscSleep = deadline

theorem Sleeps.switched {s s' : Scheduler} {ns : List (Nat × Nat)} {regs context : Registers}
    {t deadline : Nat} (h : Sleeps s t deadline) (hs : Switched hw regs context s s' ns)
    (hlate : passed hw s.tscReads s'.tscReads deadline = false) :
    Sleeps s' t deadline ∧ s'.currentTask ≠ some t := by
  obtain ⟨task, ht, hsleep, hdeadline⟩ := h
  have hsame : s'.tasks.cell t = s.tasks.cell t := by
    rcases hs.task t with he | ⟨old, ho, _, hready | ⟨_, i, hlo, hhi, hle⟩⟩
    · exact he
    · rw [ht] at ho
      obtain rfl := Option.some.inj ho
      rw [hsleep] at hready
      cases hready
    · rw [ht] at ho
      obtain rfl := Option.some.inj ho
      rw [hdeadline] at hle
      have hpassed : passed hw s.tscReads s'.tscReads deadline = true :=
        passed_iff.mpr ⟨i, hlo, hhi, hle⟩
      rw [hlate] at hpassed
      cases hpassed
  refine ⟨⟨task, hsame.trans ht, hsleep, hdeadline⟩, fun hc => ?_⟩
  obtain ⟨u, task', hu, ht', hruns⟩ := hs.runs
  rw [hc] at hu
  obtain rfl := Option.some.inj hu
  rw [hsame, ht] at ht'
  obtain rfl := Option.some.inj ht'
  rw [hsleep] at hruns
  cases hruns

/-- Every task that has a deadline sleeps until then and does not run; a task that holds a futex
is in the loop of `sys_futex_wait`, and a task there does not sleep. -/
structure Slumbers (k : Kernel) (asleep : Asleep) : Prop where
  inOrder : ∃ ns c, Coherent k.sched ns c
  sleeps : ∀ t deadline, asleep t = some deadline →
    Sleeps k.sched t deadline ∧ k.sched.currentTask ≠ some t
  holding : ∀ t, (k.futexes t).head ≠ none → k.waiting t ≠ none
  awake : ∀ t, k.waiting t ≠ none → asleep t = none

theorem init_slumbers (idle : NewTask) : Slumbers (init idle) fun _ => none where
  inOrder := ⟨[], 0, init_coherent idle⟩
  sleeps := fun _ _ h => by cases h
  holding := fun _ h => absurd rfl h
  awake := fun _ _ => rfl

/-- Without a new deadline, the deadlines that are left were there before and were not reached. -/
theorem sleepers_some {k k' : Kernel} {asleep : Asleep} {e : Event} {t deadline : Nat}
    (he : ∀ ms regs, e ≠ .sleep ms regs) (h : sleepers hw k k' asleep e t = some deadline) :
    asleep t = some deadline ∧
      passed hw k.sched.tscReads k'.sched.tscReads deadline = false := by
  have hfilter : (asleep t).filter (fun deadline =>
      !passed hw k.sched.tscReads k'.sched.tscReads deadline) = some deadline := by
    cases e with
    | sleep ms regs => exact absurd rfl (he ms regs)
    | _ => exact h
  obtain ⟨hold, hlate⟩ := Option.filter_eq_some_iff.mp hfilter
  exact ⟨hold, by simpa using hlate⟩

theorem sleepers_sleep {k k' : Kernel} {asleep : Asleep} {ms : Nat} {regs : Registers}
    {t deadline : Nat} (h : sleepers hw k k' asleep (.sleep ms regs) t = some deadline) :
    (k.sched.currentTask = some t ∧ deadline = wakeTime hw k.sched ms ∨
      k.sched.currentTask ≠ some t ∧ asleep t = some deadline) ∧
      passed hw (k.sched.tscReads + 1) k'.sched.tscReads deadline = false := by
  obtain ⟨hold, hlate⟩ := Option.filter_eq_some_iff.mp h
  refine ⟨?_, by simpa using hlate⟩
  split at hold
  next hc => exact Or.inl ⟨hc, (Option.some.inj hold).symm⟩
  next hc => exact Or.inr ⟨hc, hold⟩

/-- A task outside of the loop gets no deadline by an event other than its own sleep. -/
theorem sleepers_none {k k' : Kernel} {asleep : Asleep} {e : Event} {t : Nat}
    (he : ∀ ms regs, e = .sleep ms regs → k.sched.currentTask ≠ some t) (h : asleep t = none) :
    sleepers hw k k' asleep e t = none := by
  cases e with
  | sleep ms regs =>
    simp only [sleepers, if_neg (he ms regs rfl), h]
    rfl
  | _ =>
    simp only [sleepers, h]
    rfl

/-- An event that leaves the scheduler alone. -/
theorem Slumbers.still {k k' : Kernel} {asleep : Asleep} {e : Event} (h : Slumbers k asleep)
    (he : ∀ ms regs, e ≠ .sleep ms regs) (hs : k'.sched = k.sched) (hf : k'.futexes = k.futexes)
    (hw' : k'.waiting = k.waiting) : Slumbers k' (sleepers hw k k' asleep e) := by
  refine ⟨?_, fun t deadline hd => ?_, ?_, fun t ht => ?_⟩
  · rw [hs]
    exact h.inOrder
  · obtain ⟨hold, _⟩ := sleepers_some he hd
    rw [hs]
    exact h.sleeps t deadline hold
  · rw [hf, hw']
    exact h.holding
  · rw [hw'] at ht
    exact sleepers_none (fun ms regs hsleep => absurd hsleep (he ms regs)) (h.awake t ht)

theorem Slumbers.addTask {k k' : Kernel} {asleep : Asleep} {new : NewTask} (h : Slumbers k asleep)
    (hnext : ∃ ns c, Coherent k'.sched ns c)
    (hs : k'.sched = { (k.sched.create new).2 with queue := k'.sched.queue })
    (hf : k'.futexes = Function.update k.futexes k.sched.tasks.next DoublyLinkedList.new)
    (hw' : k'.waiting = Function.update k.waiting k.sched.tasks.next none) :
    Slumbers k' (sleepers hw k k' asleep (.addTask new)) := by
  have hcur : k'.sched.currentTask = k.sched.currentTask := by rw [hs]; rfl
  have htasks : k'.sched.tasks = k.sched.tasks.alloc
      ⟨.ready, k.sched.spaces.next, k.sched.contexts.next, new.tscSleep⟩ := by rw [hs]; rfl
  have hwait : ∀ t, k'.waiting t ≠ none → k.waiting t ≠ none := by
    intro t ht
    rw [hw'] at ht
    by_cases hnew : t = k.sched.tasks.next
    · subst hnew
      rw [Function.update_self] at ht
      exact absurd rfl ht
    · rw [Function.update_of_ne hnew] at ht
      exact ht
  refine ⟨hnext, fun t deadline hd => ?_, fun t ht => ?_, fun t ht => ?_⟩
  · obtain ⟨hold, _⟩ := sleepers_some (fun _ _ he => Event.noConfusion he) hd
    obtain ⟨⟨task, htask, hrest⟩, hc⟩ := h.sleeps t deadline hold
    refine ⟨⟨task, ?_, hrest⟩, ?_⟩
    · rw [htasks]
      exact CellStore.alloc_cell_of_live _ htask
    · rw [hcur]
      exact hc
  · rw [hf] at ht
    by_cases hnew : t = k.sched.tasks.next
    · subst hnew
      rw [Function.update_self] at ht
      exact absurd rfl ht
    · rw [Function.update_of_ne hnew] at ht
      rw [hw', Function.update_of_ne hnew]
      exact h.holding t ht
  · exact sleepers_none (fun _ _ he => Event.noConfusion he) (h.awake t (hwait t ht))

/-- A task with a deadline is not one of those that are woken: it does not wait for input, and it
holds no futex. -/
theorem Slumbers.not_woken {k : Kernel} {asleep : Asleep} {e : Event} {which : Nat → Prop}
    (h : Slumbers k asleep) (hwakes : Wakes k e which) {t deadline : Nat}
    (hd : asleep t = some deadline) : ¬which t := by
  obtain ⟨⟨task, htask, hsleep, _⟩, _⟩ := h.sleeps t deadline hd
  have hinput : ¬∃ task, k.sched.tasks.cell t = some task ∧ task.status = .waitingIo := by
    intro hwhich
    obtain ⟨task', ht', hs'⟩ := hwhich
    rw [htask] at ht'
    obtain rfl := Option.some.inj ht'
    rw [hsleep] at hs'
    cases hs'
  cases hwakes with
  | wakeIo kbEvent => exact hinput
  | wakeNet => exact hinput
  | futexWake pointer =>
    intro hhead
    have hnone := h.awake t (h.holding t hhead)
    rw [hd] at hnone
    cases hnone

theorem Slumbers.woken {k k' : Kernel} {asleep : Asleep} {e : Event} {which : Nat → Prop}
    (h : Slumbers k asleep) (hwakes : Wakes k e which) (hs : Woken k.sched k'.sched which)
    (hf : k' = { k with sched := k'.sched, events := k'.events }) :
    Slumbers k' (sleepers hw k k' asleep e) := by
  have hnone : ∀ ms regs, e ≠ .sleep ms regs := by
    rintro ms regs rfl
    cases hwakes
  have hcur : k'.sched.currentTask = k.sched.currentTask := by rw [hs.frame]
  have hfutexes : k'.futexes = k.futexes := by rw [hf]
  have hwaiting : k'.waiting = k.waiting := by rw [hf]
  obtain ⟨ns, c, hcoh⟩ := h.inOrder
  refine ⟨⟨ns, c, hs.coherent hcoh⟩, fun t deadline hd => ?_, ?_, fun t ht => ?_⟩
  · obtain ⟨hold, _⟩ := sleepers_some hnone hd
    obtain ⟨⟨task, htask, hrest⟩, hc⟩ := h.sleeps t deadline hold
    refine ⟨⟨task, ?_, hrest⟩, ?_⟩
    · rcases hs.task t with he | ⟨hwhich, _⟩
      · exact he.trans htask
      · exact absurd hwhich (h.not_woken hwakes hold)
    · rw [hcur]
      exact hc
  · rw [hfutexes, hwaiting]
    exact h.holding
  · rw [hwaiting] at ht
    exact sleepers_none (fun ms regs he => absurd he (hnone ms regs)) (h.awake t ht)

/-- A task with a deadline that does not run is not changed by what the current task does before
it yields. -/
theorem Sleeps.adjust {s : Scheduler} {t u deadline : Nat} (h : Sleeps s t deadline) (hne : t ≠ u)
    (f : Task → Task) (reads : Nat) :
    Sleeps { s with tscReads := reads, tasks := s.tasks.adjust u f } t deadline := by
  obtain ⟨task, ht, hrest⟩ := h
  exact ⟨task, (CellStore.adjust_cell_ne _ _ hne).trans ht, hrest⟩

/-- When `schedule` is entered, every task whose deadline is left after it sleeps until then. -/
theorem Slumbers.entered {k k' : Kernel} {asleep : Asleep} {e : Event} {regs : Registers}
    {s : Scheduler} (h : Slumbers k asleep) (he : Enters hw k e regs s) {t deadline : Nat}
    (hd : sleepers hw k k' asleep e t = some deadline) :
    Sleeps s t deadline ∧ passed hw s.tscReads k'.sched.tscReads deadline = false := by
  have hother : ∀ u, k.sched.currentTask = some u → asleep t = some deadline → t ≠ u := by
    rintro u hu hold rfl
    exact (h.sleeps _ deadline hold).2 hu
  cases he with
  | timer =>
    obtain ⟨hold, hlate⟩ := sleepers_some (fun _ _ he => Event.noConfusion he) hd
    exact ⟨(h.sleeps t deadline hold).1, hlate⟩
  | yield =>
    obtain ⟨hold, hlate⟩ := sleepers_some (fun _ _ he => Event.noConfusion he) hd
    exact ⟨(h.sleeps t deadline hold).1, hlate⟩
  | sleep ms _ hu =>
    obtain ⟨⟨hc, rfl⟩ | ⟨hc, hold⟩, hlate⟩ := sleepers_sleep hd
    · rw [hu] at hc
      obtain rfl := Option.some.inj hc
      obtain ⟨ns, c, hcoh⟩ := h.inOrder
      obtain ⟨u, task, hu', ht⟩ := hcoh.current_task
      rw [hu] at hu'
      obtain rfl := Option.some.inj hu'
      exact ⟨⟨_, CellStore.adjust_cell_self _ ht, rfl, rfl⟩, hlate⟩
    · have hne := hother _ hu hold
      exact ⟨(h.sleeps t deadline hold).1.adjust hne _ _, hlate⟩
  | awaitIo _ hu =>
    obtain ⟨hold, hlate⟩ := sleepers_some (fun _ _ he => Event.noConfusion he) hd
    exact ⟨(h.sleeps t deadline hold).1.adjust (hother _ hu hold) _ k.sched.tscReads, hlate⟩
  | futexTurn _ _ _ hu =>
    obtain ⟨hold, hlate⟩ := sleepers_some (fun _ _ he => Event.noConfusion he) hd
    exact ⟨(h.sleeps t deadline hold).1.adjust (hother _ hu hold) _ k.sched.tscReads, hlate⟩

theorem Slumbers.switched {k k' : Kernel} {asleep : Asleep} {e : Event} {regs context : Registers}
    {s : Scheduler} {ns : List (Nat × Nat)} (h : Slumbers k asleep) (hown : k.Own e)
    (hnext : ∃ ns c, Coherent k'.sched ns c) (he : Enters hw k e regs s)
    (hs : Switched hw regs context s k'.sched ns)
    (hf : k' = { k with sched := k'.sched, loaded := some context }) :
    Slumbers k' (sleepers hw k k' asleep e) := by
  have hfutexes : k'.futexes = k.futexes := by rw [hf]
  have hwaiting : k'.waiting = k.waiting := by rw [hf]
  refine ⟨hnext, fun t deadline hd => ?_, ?_, fun t ht => ?_⟩
  · obtain ⟨hsleeps, hlate⟩ := h.entered he hd
    exact hsleeps.switched hs hlate
  · rw [hfutexes, hwaiting]
    exact h.holding
  · rw [hwaiting] at ht
    apply sleepers_none _ (h.awake t ht)
    rintro ms regs rfl hc
    exact ht (hown t hc)

/-- A task that begins to wait for a futex runs, so it has no deadline. -/
theorem Slumbers.wait {k k' : Kernel} {asleep : Asleep} {pointer u : Nat} {value : BitVec 32}
    {regs context : Registers} {ns : List (Nat × Nat)} {list : DoublyLinkedList Nat}
    (h : Slumbers k asleep) (hnext : ∃ ns c, Coherent k'.sched ns c)
    (hu : k.sched.currentTask = some u)
    (hs : Switched hw regs context (k.sched.awaited u) k'.sched ns)
    (hf : k'.futexes = Function.update k.futexes u list)
    (hw' : k'.waiting = Function.update k.waiting u (some pointer)) :
    Slumbers k' (sleepers hw k k' asleep (.futexWait pointer value value regs)) := by
  refine ⟨hnext, fun t deadline hd => ?_, fun t ht => ?_, fun t ht => ?_⟩
  · obtain ⟨hold, hlate⟩ := sleepers_some (fun _ _ he => Event.noConfusion he) hd
    obtain ⟨hsleeps, hc⟩ := h.sleeps t deadline hold
    have hne : t ≠ u := by
      rintro rfl
      exact hc hu
    exact (hsleeps.adjust hne _ k.sched.tscReads).switched hs hlate
  · rw [hw']
    by_cases htu : t = u
    · subst htu
      rw [Function.update_self]
      exact Option.some_ne_none pointer
    · rw [hf, Function.update_of_ne htu] at ht
      rw [Function.update_of_ne htu]
      exact h.holding t ht
  · apply sleepers_none (fun _ _ he => Event.noConfusion he)
    by_cases htu : t = u
    · subst htu
      cases hd : asleep t with
      | none => rfl
      | some deadline => exact absurd hu (h.sleeps t deadline hd).2
    · rw [hw', Function.update_of_ne htu] at ht
      exact h.awake t ht

theorem Slumbers.step {k k' : Kernel} {asleep : Asleep} {e : Event} (h : Slumbers k asleep)
    (hown : k.Own e) (hkill : ∀ regs, e ≠ .kill regs) (hs : k.step hw fuel e = .ok k') :
    Slumbers k' (sleepers hw k k' asleep e) := by
  obtain ⟨ns, c, hcoh⟩ := h.inOrder
  have heffect := step_effect hcoh (fun regs he => absurd he (hkill regs)) hs
  have hnext := heffect.coherent hcoh
  cases heffect with
  | addTask new a c' _ hsched hframe =>
    apply h.addTask hnext hsched
    · rw [hframe]
    · rw [hframe]
  | wake which hwakes hwoken hframe => exact h.woken hwakes hwoken hframe
  | switch regs context s henters _ hswitch hframe =>
    exact h.switched hown hnext henters hswitch hframe
  | wait u pointer value regs context hu _ hswitch list hframe =>
    have hfutexes : k'.futexes = Function.update k.futexes u list := by rw [hframe]
    have hwaiting : k'.waiting = Function.update k.waiting u (some pointer) := by rw [hframe]
    exact h.wait hnext hu hswitch hfutexes hwaiting
  | again pointer value expected regs =>
    exact h.still (fun _ _ he => Event.noConfusion he) rfl rfl rfl
  | kill u task q s regs => exact absurd rfl (hkill regs)
  | tcbSet pointer => exact h.still (fun _ _ he => Event.noConfusion he) rfl rfl rfl

/-- In every run without an exit, in which each task makes its calls one after another, a task
that went to sleep does not run before `schedule` has read a time stamp at or above the
deadline that the task stored. -/
theorem sleeper_not_resumed {idle : NewTask} {es : List Event} {k : Kernel} {asleep : Asleep}
    (hkill : ∀ regs, Event.kill regs ∉ es)
    (hown : Along (sleepStep hw fuel) (fun p e _ => p.1.Own e) (init idle, fun _ => none) es)
    (hrun : run (sleepStep hw fuel) (init idle, fun _ => none) es = .ok (k, asleep))
    {t deadline : Nat} (hd : asleep t = some deadline) : k.sched.currentTask ≠ some t := by
  have hmeets : Along (sleepStep hw fuel) (fun p e _ => p.1.Own e ∧ ∀ regs, e ≠ .kill regs)
      (init idle, fun _ => none) es := by
    apply hown.and
    apply Along.of_forall
    rintro e he _ _ regs rfl
    exact hkill regs he
  have hkeep : ∀ p e p', Slumbers p.1 p.2 → (p.1.Own e ∧ ∀ regs, e ≠ .kill regs) →
      sleepStep hw fuel p e = .ok p' → Slumbers p'.1 p'.2 := by
    intro p e p' hp hmeets hs
    obtain ⟨hstep, hasleep⟩ := sleepStep_ok hs
    rw [hasleep]
    exact hp.step hmeets.1 hmeets.2 hstep
  have hslumbers : Slumbers k asleep := hmeets.invariant hkeep (init_slumbers idle) hrun
  exact (hslumbers.sleeps t deadline hd).2

/-- Two tasks are added, and the newer one sleeps until time stamp 100. -/
theorem newer_task_sleeps : ∃ k asleep, run (sleepStep ⟨id, 1, 0⟩ 0)
      (init plainTask, fun _ => none) [.addTask plainTask, .addTask plainTask,
        .timer zeroRegisters, .sleep 100 zeroRegisters] = .ok (k, asleep) ∧
    asleep 2 = some 100 ∧ k.sched.currentTask ≠ some 2 := by
  have hkill : ∀ regs, Event.kill regs ∉ [.addTask plainTask, .addTask plainTask,
      .timer zeroRegisters, .sleep 100 zeroRegisters] := by
    intro regs
    simp
  have hown : Along (sleepStep ⟨id, 1, 0⟩ 0) (fun p e _ => p.1.Own e)
      (init plainTask, fun _ => none) [.addTask plainTask, .addTask plainTask,
        .timer zeroRegisters, .sleep 100 zeroRegisters] := by
    intro p₁ h₁
    refine ⟨trivial, fun p₂ h₂ => ⟨trivial, fun p₃ h₃ => ⟨trivial, fun p₄ h₄ => ⟨?_, trivial⟩⟩⟩⟩
    cases h₁
    cases h₂
    cases h₃
    intro t ht
    cases ht
    rfl
  obtain ⟨k, asleep, hrun, hd⟩ : ∃ k asleep, run (sleepStep ⟨id, 1, 0⟩ 0)
      (init plainTask, fun _ => none) [.addTask plainTask, .addTask plainTask,
        .timer zeroRegisters, .sleep 100 zeroRegisters] = .ok (k, asleep) ∧
      asleep 2 = some 100 := ⟨_, _, rfl, by decide⟩
  exact ⟨k, asleep, hrun, hd, sleeper_not_resumed hkill hown hrun hd⟩

end Kernel

end UmbraOS
