import UmbraOS.SchedulerSafety

namespace UmbraOS

namespace Scheduler

theorem init_live (idle : NewTask) : Live (init idle) [] 0 := by
  have hcell : ∀ t task, (init idle).tasks.cell t = some task →
      t = 0 ∧ task = ⟨.ready, 0, 0, idle.tscSleep⟩ := by
    intro t task ht
    by_cases h0 : t = 0
    · subst h0
      cases ht
      exact ⟨rfl, rfl⟩
    · rw [init, create, CellStore.alloc_cell, if_neg (show t ≠ blank.tasks.next from h0)] at ht
      cases ht
  refine ⟨⟨⟨TaskList.new_holds, by simp, ⟨0, _, rfl, rfl⟩⟩, by simp, ?_, ?_, ?_⟩, Or.inl rfl⟩
  · intro t task ht
    obtain ⟨_, rfl⟩ := hcell t task ht
    exact ⟨idle.context, rfl⟩
  · intro t task ht
    obtain ⟨_, rfl⟩ := hcell t task ht
    exact ⟨idle.space, rfl⟩
  · intro t u a b ht hu hne
    exact absurd ((hcell t a ht).1.trans (hcell u b hu).1.symm) hne

/-- A new task shares no part with the tasks there are. -/
theorem Stocked.create {s : Scheduler} {ns : List (Nat × Nat)} {c : Nat} (h : Stocked s ns c)
    (new : NewTask) : Stocked (s.create new).2 ns c := by
  have hcell : ∀ t task, (s.create new).2.tasks.cell t = some task →
      t = s.tasks.next ∧ task.context = s.contexts.next ∧ task.addressSpace = s.spaces.next ∨
        s.tasks.cell t = some task := by
    intro t task ht
    by_cases hn : t = s.tasks.next
    · rw [Scheduler.create, CellStore.alloc_cell, if_pos hn] at ht
      cases ht
      exact Or.inl ⟨hn, rfl, rfl⟩
    · rw [Scheduler.create, CellStore.alloc_cell, if_neg hn] at ht
      exact Or.inr ht
  have hold : ∀ t task, s.tasks.cell t = some task →
      task.context < s.contexts.next ∧ task.addressSpace < s.spaces.next := by
    intro t task ht
    obtain ⟨r, hr⟩ := h.context t task ht
    obtain ⟨sp, hsp⟩ := h.space t task ht
    exact ⟨CellStore.lt_next hr, CellStore.lt_next hsp⟩
  refine ⟨⟨h.queue, ?_, ?_⟩, h.idleOut, ?_, ?_, ?_⟩
  · intro p hp
    obtain ⟨task, ht⟩ := h.queued p hp
    exact ⟨task, CellStore.alloc_cell_of_live _ ht⟩
  · obtain ⟨t, task, hi, ht⟩ := h.idle
    exact ⟨t, task, hi, CellStore.alloc_cell_of_live _ ht⟩
  · intro t task ht
    rcases hcell t task ht with ⟨_, he, _⟩ | ho
    · rw [he]
      exact ⟨new.context, CellStore.alloc_cell_self _ _⟩
    · obtain ⟨r, hr⟩ := h.context t task ho
      exact ⟨r, CellStore.alloc_cell_of_live _ hr⟩
  · intro t task ht
    rcases hcell t task ht with ⟨_, _, he⟩ | ho
    · rw [he]
      exact ⟨new.space, CellStore.alloc_cell_self _ _⟩
    · obtain ⟨sp, hsp⟩ := h.space t task ho
      exact ⟨sp, CellStore.alloc_cell_of_live _ hsp⟩
  · intro t u a b ht hu hne
    rcases hcell t a ht with ⟨rfl, ha, ha'⟩ | hot <;> rcases hcell u b hu with ⟨rfl, hb, hb'⟩ | hou
    · exact absurd rfl hne
    · have := hold u b hou
      exact ⟨by omega, by omega⟩
    · have := hold t a hot
      exact ⟨by omega, by omega⟩
    · exact h.apart t u a b hot hou hne

theorem Live.addTask {s : Scheduler} {ns : List (Nat × Nat)} {c : Nat} (h : Live s ns c)
    (new : NewTask) : Safely ((s.create new).2.addTask (s.create new).1)
      fun t => ∃ ns' c', Live t ns' c' := by
  have hs := h.toStocked.create new
  obtain ⟨q, hq, c', hholds⟩ : ∃ q, s.queue.addTask s.tasks.next = .ok q ∧
      ∃ c', q.Holds ((s.queue.nodes.next, s.tasks.next) :: ns) c' := by
    by_cases hne : ns = []
    · subst hne
      obtain ⟨q, hq, hholds⟩ := TaskList.addTask_empty h.queue s.tasks.next
      exact ⟨q, hq, 0, hholds⟩
    · obtain ⟨q, hq, hholds⟩ := TaskList.addTask_cons h.queue hne s.tasks.next
      exact ⟨q, hq, c + 1, hholds⟩
  have hstep : (s.create new).2.addTask (s.create new).1 =
      .ok { (s.create new).2 with queue := q } := by
    unfold Scheduler.addTask
    rw [show (s.create new).2.queue.addTask (s.create new).1 = .ok q from hq, Except.ok_bind]
    rfl
  obtain ⟨ti, taski, hi, hti⟩ := h.idle
  have hidle : s.idleTask ≠ some s.tasks.next := by
    have hlt := CellStore.lt_next hti
    rw [hi]
    intro he
    have := Option.some.inj he
    omega
  refine Safely.of_ok hstep ⟨_, c', ⟨⟨⟨hholds, ?_, hs.idle⟩, ?_, hs.context, hs.space, hs.apart⟩, ?_⟩⟩
  · intro p hp
    rcases List.mem_cons.mp hp with rfl | hp
    · exact ⟨_, CellStore.alloc_cell_self _ _⟩
    · exact hs.queued p hp
  · intro p hp
    rcases List.mem_cons.mp hp with rfl | hp
    · exact hidle
    · exact h.idleOut p hp
  · rcases h.current with hc | ⟨p, hp, hc⟩
    · exact Or.inl hc
    · exact Or.inr ⟨p, List.mem_cons_of_mem _ hp, hc⟩

theorem Live.handler (hw : Platform) (fuel : Nat) {s : Scheduler} {ns : List (Nat × Nat)} {c : Nat}
    (h : Live s ns c) (regs : Registers) :
    Safely ((s.handler hw fuel regs).map Prod.snd) fun t => ∃ ns' c', Live t ns' c' :=
  (h.toStocked.handler hw fuel (Or.inr h.current) regs).map fun _ ⟨c', hl⟩ => ⟨ns, c', hl⟩

theorem Live.sleep (hw : Platform) (fuel : Nat) {s : Scheduler} {ns : List (Nat × Nat)} {c : Nat}
    (h : Live s ns c) (ms : Nat) (regs : Registers) :
    Safely ((s.sleep hw fuel ms regs).map Prod.snd) fun t => ∃ ns' c', Live t ns' c' := by
  have hs : Safely (s.sleep hw fuel ms regs) fun r => ∃ c', Live r.2 ns c' := by
    unfold Scheduler.sleep
    refine (h.setStatus .sleeping).bind fun s₁ h₁ => ?_
    obtain ⟨t, task, hc, ht⟩ := h₁.current_task
    have hm : s₁.tasks.modify s₁.currentTask (fun task => { task with
        tscSleep := u64 (hw.tsc s₁.tscReads + u64 (hw.cyclesPerMs * ms)) }) =
        .ok (s₁.tasks.adjust t fun task => { task with
          tscSleep := u64 (hw.tsc s₁.tscReads + u64 (hw.cyclesPerMs * ms)) }) := by
      rw [hc, CellStore.modify_live _ ht]
    have h₂ := h₁.adjust t (f := fun task => { task with
      tscSleep := u64 (hw.tsc s₁.tscReads + u64 (hw.cyclesPerMs * ms)) }) (fun _ => rfl) fun _ => rfl
    have h₃ : Live { s₁ with
        tasks := s₁.tasks.adjust t fun task => { task with
          tscSleep := u64 (hw.tsc s₁.tscReads + u64 (hw.cyclesPerMs * ms)) }
        tscReads := s₁.tscReads + 1 } ns c :=
      ⟨⟨⟨h₂.queue, h₂.queued, h₂.idle⟩, h₂.idleOut, h₂.context, h₂.space, h₂.apart⟩, h₂.current⟩
    simp only [hm, Except.ok_bind]
    exact h₃.toStocked.handler hw fuel (Or.inr h₃.current) regs
  exact hs.map fun _ ⟨c', hl⟩ => ⟨ns, c', hl⟩

theorem Live.awaitIo (hw : Platform) (fuel : Nat) {s : Scheduler} {ns : List (Nat × Nat)} {c : Nat}
    (h : Live s ns c) (regs : Registers) :
    Safely ((s.awaitIo hw fuel regs).map Prod.snd) fun t => ∃ ns' c', Live t ns' c' := by
  have hs : Safely (s.awaitIo hw fuel regs) fun r => ∃ c', Live r.2 ns c' := by
    unfold Scheduler.awaitIo
    refine (h.setStatus .waitingIo).bind fun s₁ h₁ => ?_
    exact h₁.toStocked.handler hw fuel (Or.inr h₁.current) regs
  exact hs.map fun _ ⟨c', hl⟩ => ⟨ns, c', hl⟩

/-- The state once the current task and its parts are deleted. -/
def deleted (s : Scheduler) (t : Nat) (task : Task) : Scheduler :=
  { s with
    tasks := s.tasks.erase t
    contexts := s.contexts.erase task.context
    spaces := s.spaces.erase task.addressSpace }

theorem Live.deleteCurrent {s : Scheduler} {ns : List (Nat × Nat)} {c t : Nat} {task : Task}
    (h : Live s ns c) (hc : s.currentTask = some t) (ht : s.tasks.cell t = some task) :
    s.deleteCurrent = .ok (s.deleted t task) := by
  obtain ⟨r, hr⟩ := h.context t task ht
  obtain ⟨sp, hsp⟩ := h.space t task ht
  have hfree : s.tasks.free s.currentTask = .ok (s.tasks.erase t) := by
    rw [hc, CellStore.free_live ht]
  unfold Scheduler.deleteCurrent
  rw [read_current hc ht, Except.ok_bind, CellStore.free_live hsp, Except.ok_bind,
    CellStore.free_live hr, Except.ok_bind, hfree, Except.ok_bind]
  rfl

/-- `schedule` looks at the current task of a queue that is not empty, and at the idle task
of an empty one; either may be deleted. -/
theorem handler_dead (hw : Platform) (fuel : Nat) {s : Scheduler} {ns : List (Nat × Nat)}
    {c t : Nat} (hq : s.queue.Holds ns c) (hidle : s.idleTask ≠ none)
    (hcur : s.currentTask = some t) (ht : s.tasks.cell t = none)
    (hcase : ns ≠ [] ∨ s.idleTask = some t) (regs : Registers) :
    s.handler hw fuel regs = .error .useAfterFree := by
  have hdead : s.tasks.read (some t) = .error .useAfterFree := CellStore.read_dead ht
  unfold Scheduler.handler Scheduler.schedule
  rw [if_neg (by simp [hidle])]
  unfold Scheduler.saveContext
  simp only [hq.isEmpty_eq, decide_eq_true_eq]
  by_cases hne : ns = []
  · have hi : s.idleTask = some t := hcase.resolve_left (not_not.mpr hne)
    rw [if_pos hne, hi]
    have hsel : ∀ s' : Scheduler, s'.queue = s.queue → s'.tasks = s.tasks →
        s'.currentTask = some t → s'.select hw fuel = .error .useAfterFree := by
      intro s' hq' ht' hc'
      have hturn : s'.turn hw = .error .useAfterFree := by
        unfold Scheduler.turn
        rw [ht', hc', hdead]
        rfl
      unfold Scheduler.select Scheduler.advance
      rw [hq', hq.isEmpty_eq, if_pos (by simpa using hne)]
      cases fuel <;> simp only [pure, Except.pure, Except.ok_bind, Scheduler.selectLoop, hturn,
        Except.error_bind]
    exact congrArg (fun x => x >>= fun s' => s'.loadTask hw) (hsel { s with
      currentTask := some t, idleTask := some t, realTime := u64 (s.realTime + 1) } rfl rfl rfl)
  · rw [if_neg hne, hcur, hdead]
    rfl

/-- The queue is empty, or its only task is the current one. -/
def LastTask (s : Scheduler) : Prop :=
  s.queue.front = none ∨ ∃ a n, s.queue.front = some a ∧ s.queue.nodes.cell a = some n ∧
    n.next = none ∧ s.currentTask = some n.task

theorem Live.lastTask_iff {s : Scheduler} {ns : List (Nat × Nat)} {c : Nat} (h : Live s ns c) :
    s.LastTask ↔ ns = [] ∨ ∃ a t, ns = [(a, t)] ∧ s.currentTask = some t := by
  have hfront : s.queue.front = TaskList.addr ns 0 := h.queue.front
  rw [LastTask, hfront]
  cases ns with
  | nil => simp [TaskList.addr]
  | cons p ns =>
    obtain ⟨a, t⟩ := p
    obtain ⟨n, hn, hnt, hnn, _⟩ := h.queue.node 0 a t rfl
    have haddr : TaskList.addr ((a, t) :: ns) 0 = some a := rfl
    rw [haddr]
    constructor
    · rintro (hx | ⟨b, m, hb, hm, hmn, hmc⟩)
      · cases hx
      · cases hb
        rw [hn] at hm
        cases hm
        rw [hnn, TaskList.addr_eq_none] at hmn
        have hlen : ns.length = 0 := by
          rw [List.length_cons] at hmn
          omega
        exact Or.inr ⟨a, t, by rw [List.eq_nil_of_length_eq_zero hlen], hnt ▸ hmc⟩
    · rintro (hx | ⟨b, u, hb, hu⟩)
      · cases hx
      · cases hb
        exact Or.inr ⟨a, n, rfl, hn, hnn, hnt ▸ hu⟩

/-- The last task takes only its own parts along. -/
theorem Live.kill_last (hw : Platform) (fuel : Nat) {s : Scheduler} {ns : List (Nat × Nat)}
    {c : Nat} (h : Live s ns c) (hlast : s.LastTask) (regs : Registers) :
    Safely ((s.killAndYield hw fuel regs).map Prod.snd) fun t => ∃ ns' c', Live t ns' c' := by
  rcases h.lastTask_iff.mp hlast with rfl | ⟨a, t, rfl, hcur⟩
  · have hkill : s.killAndYield hw fuel regs = .ok (regs, s) := by
      unfold Scheduler.killAndYield
      rw [h.queue.isEmpty_eq]
      rfl
    exact Safely.of_ok (congrArg (Except.map Prod.snd) hkill) ⟨[], c, h⟩
  · obtain ⟨task, ht⟩ := h.queued (a, t) (by simp)
    have hc : c = 0 := by
      have := h.queue.cursor.resolve_left (by simp)
      simpa using this
    subst hc
    obtain ⟨q, hq, hholds⟩ := TaskList.removeCurrent_holds h.queue (by simp)
    have hkill : s.killAndYield hw fuel regs =
        { s.deleted t task with queue := q }.handler hw fuel regs := by
      unfold Scheduler.killAndYield
      rw [h.queue.isEmpty_eq, if_neg (by simp), h.deleteCurrent hcur ht, Except.ok_bind,
        show (s.deleted t task).queue.removeCurrent = .ok q from hq, Except.ok_bind]
    have hlive : ∀ u task', (s.tasks.erase t).cell u = some task' →
        u ≠ t ∧ s.tasks.cell u = some task' := fun u task' hu => CellStore.erase_cell_live hu
    obtain ⟨i, itask, hi, hit⟩ := h.idle
    have hit' : i ≠ t := by
      rintro rfl
      exact h.idleOut (a, i) (by simp) hi
    have hstocked : Stocked { s.deleted t task with queue := q } [] 0 := by
      refine ⟨⟨hholds, by simp, ⟨i, itask, hi, ?_⟩⟩, by simp, ?_, ?_, ?_⟩
      · exact (CellStore.erase_cell_ne _ hit').trans hit
      · intro u task' hu
        obtain ⟨hne, hu'⟩ := hlive u task' hu
        obtain ⟨r, hr⟩ := h.context u task' hu'
        have hap := h.apart u t task' task hu' ht hne
        exact ⟨r, (CellStore.erase_cell_ne _ hap.1).trans hr⟩
      · intro u task' hu
        obtain ⟨hne, hu'⟩ := hlive u task' hu
        obtain ⟨sp, hsp⟩ := h.space u task' hu'
        have hap := h.apart u t task' task hu' ht hne
        exact ⟨sp, (CellStore.erase_cell_ne _ hap.2).trans hsp⟩
      · intro u v x y hu hv hne
        exact h.apart u v x y (hlive u x hu).2 (hlive v y hv).2 hne
    rw [hkill]
    exact (hstocked.handler hw fuel (Or.inl rfl) regs).map fun _ ⟨c', hl⟩ => ⟨[], c', hl⟩

/-- The exit of any other task makes `schedule` look at it once more. -/
theorem Live.kill_other (hw : Platform) (fuel : Nat) {s : Scheduler} {ns : List (Nat × Nat)}
    {c : Nat} (h : Live s ns c) (hlast : ¬s.LastTask) (regs : Registers) :
    s.killAndYield hw fuel regs = .error .useAfterFree := by
  rw [h.lastTask_iff, not_or] at hlast
  obtain ⟨hne, hone⟩ := hlast
  obtain ⟨t, task, hcur, ht⟩ := h.current_task
  obtain ⟨q, hq, hholds⟩ := TaskList.removeCurrent_holds h.queue hne
  have hidle : s.idleTask ≠ none := by
    obtain ⟨i, _, hi, _⟩ := h.idle
    simp [hi]
  unfold Scheduler.killAndYield
  rw [h.queue.isEmpty_eq, if_neg (by simpa using hne), h.deleteCurrent hcur ht, Except.ok_bind,
    show (s.deleted t task).queue.removeCurrent = .ok q from hq, Except.ok_bind]
  have hdead : (s.tasks.erase t).cell t = none := by
    rw [CellStore.erase_cell, if_pos rfl]
  have hcase : ns.eraseIdx c ≠ [] ∨ s.idleTask = some t := by
    by_cases he : ns.eraseIdx c = []
    · right
      have hlen : c < ns.length := h.queue.cursor.resolve_left hne
      have hl : ns.length = 1 := by
        have := List.length_eraseIdx_of_lt hlen
        rw [he, List.length_nil] at this
        omega
      obtain ⟨p, rfl⟩ := List.length_eq_one_iff.mp hl
      rcases h.current with hi | ⟨p', hp', hcp⟩
      · exact hi ▸ hcur
      · rw [List.mem_singleton.mp hp'] at hcp
        exact absurd ⟨p.1, p.2, rfl, hcp⟩ hone
    · exact Or.inl he
  exact handler_dead hw fuel (s := { s.deleted t task with queue := q }) hholds hidle hcur hdead
    hcase regs

theorem step_live (hw : Platform) (fuel : Nat) {s : Scheduler} (h : ∃ ns c, Live s ns c) (op : Op)
    (hop : (∀ regs, op ≠ .kill regs) ∨ s.LastTask) :
    Safely (s.step hw fuel op) fun t => ∃ ns c, Live t ns c := by
  obtain ⟨ns, c, h⟩ := h
  cases op with
  | addTask new => exact h.addTask new
  | timer regs => exact h.handler hw fuel regs
  | yield regs => exact h.handler hw fuel regs
  | sleep ms regs => exact h.sleep hw fuel ms regs
  | awaitIo regs => exact h.awaitIo hw fuel regs
  | kill regs => exact h.kill_last hw fuel (hop.resolve_left fun hn => hn regs rfl) regs

/-- In the run of the operations, each `kill_and_yield` that is reached finds the queue empty
or holding just the current task. -/
def KillsLast (hw : Platform) (fuel : Nat) (s : Scheduler) : List Op → Prop
  | [] => True
  | op :: ops => ((∀ regs, op ≠ .kill regs) ∨ s.LastTask) ∧
      ∀ t, s.step hw fuel op = .ok t → KillsLast hw fuel t ops

theorem run_safe_iff (hw : Platform) (fuel : Nat) {s : Scheduler} (h : ∃ ns c, Live s ns c)
    (ops : List Op) :
    run (step hw fuel) s ops ≠ .error .useAfterFree ↔ KillsLast hw fuel s ops := by
  induction ops generalizing s with
  | nil => simp [KillsLast]
  | cons op ops ih =>
    rw [run_cons, KillsLast]
    by_cases hop : (∀ regs, op ≠ .kill regs) ∨ s.LastTask
    · have hsafe := step_live hw fuel h op hop
      simp only [hop, true_and]
      cases hstep : s.step hw fuel op with
      | error e =>
        have he : e ≠ .useAfterFree := by
          rintro rfl
          exact hsafe.ne_useAfterFree hstep
        rw [Except.error_bind]
        simp [he]
      | ok t =>
        rw [Except.ok_bind, ih (hsafe.result hstep)]
        simp
    · obtain ⟨hkill, hlast⟩ := not_or.mp hop
      obtain ⟨regs, rfl⟩ : ∃ regs, op = .kill regs := by
        by_contra hn
        exact hkill fun regs he => hn ⟨regs, he⟩
      obtain ⟨ns, c, hl⟩ := h
      have hstep : s.step hw fuel (.kill regs) = .error .useAfterFree :=
        congrArg (Except.map Prod.snd) (hl.kill_other hw fuel hlast regs)
      rw [hstep, Except.error_bind]
      simp [hlast]

/-- From the start of the scheduler, no operation uses a deleted task, context or address
space exactly when every task that exits is the only one in the queue. -/
theorem schedule_uses_live_iff (hw : Platform) (fuel : Nat) (idle : NewTask) (ops : List Op) :
    run (step hw fuel) (init idle) ops ≠ .error .useAfterFree ↔ KillsLast hw fuel (init idle) ops :=
  run_safe_iff hw fuel ⟨[], 0, init_live idle⟩ ops

def zeroRegisters : Registers :=
  ⟨0, 0, 0, 0, 0, 0, 0, 0, 0, 0, 0, 0, 0, 0, 0, 0, 0, 0, 0, 0, 0, 0⟩

def plainTask : NewTask := ⟨zeroRegisters, ⟨0⟩, 0⟩

/-- Two tasks, a timer tick, and the exit of the task it resumed. -/
theorem exit_uses_deleted_task :
    run (step ⟨id, 1, 0⟩ 0) (init plainTask)
      [.addTask plainTask, .addTask plainTask, .timer zeroRegisters, .kill zeroRegisters] =
      .error .useAfterFree := by
  rfl

end Scheduler

end UmbraOS
