import UmbraOS.Scheduler

namespace UmbraOS

namespace Scheduler

/-- The queue is the list of nodes `ns` with its cursor at `c`, and its tasks and the idle
task exist. -/
structure Queued (s : Scheduler) (ns : List (Nat × Nat)) (c : Nat) : Prop where
  queue : s.queue.Holds ns c
  queued : ∀ p ∈ ns, ∃ task, s.tasks.cell p.2 = some task
  idle : ∃ t task, s.idleTask = some t ∧ s.tasks.cell t = some task

/-- Every task has a context and an address space of its own, and the idle task is not
queued. -/
structure Stocked (s : Scheduler) (ns : List (Nat × Nat)) (c : Nat) : Prop
    extends Queued s ns c where
  idleOut : ∀ p ∈ ns, s.idleTask ≠ some p.2
  context : ∀ t task, s.tasks.cell t = some task → ∃ r, s.contexts.cell task.context = some r
  space : ∀ t task, s.tasks.cell t = some task → ∃ sp, s.spaces.cell task.addressSpace = some sp
  apart : ∀ t u a b, s.tasks.cell t = some a → s.tasks.cell u = some b → t ≠ u →
    a.context ≠ b.context ∧ a.addressSpace ≠ b.addressSpace

/-- The current task is the idle task or a queued one. -/
def CurrentIn (s : Scheduler) (ns : List (Nat × Nat)) : Prop :=
  s.currentTask = s.idleTask ∨ ∃ p ∈ ns, s.currentTask = some p.2

structure Live (s : Scheduler) (ns : List (Nat × Nat)) (c : Nat) : Prop
    extends Stocked s ns c where
  current : CurrentIn s ns

theorem Live.current_task {s : Scheduler} {ns : List (Nat × Nat)} {c : Nat} (h : Live s ns c) :
    ∃ t task, s.currentTask = some t ∧ s.tasks.cell t = some task := by
  rcases h.current with hi | ⟨p, hp, hc⟩
  · obtain ⟨t, task, ht, hcell⟩ := h.idle
    exact ⟨t, task, hi.trans ht, hcell⟩
  · obtain ⟨task, hcell⟩ := h.queued p hp
    exact ⟨p.2, task, hc, hcell⟩

theorem read_current {s : Scheduler} {t : Nat} {task : Task} (hc : s.currentTask = some t)
    (ht : s.tasks.cell t = some task) : s.tasks.read s.currentTask = .ok task := by
  rw [hc, CellStore.read_live ht]

theorem setStatus_eq {s : Scheduler} {t : Nat} {task : Task} (hc : s.currentTask = some t)
    (ht : s.tasks.cell t = some task) (status : Status) :
    s.setStatus status = .ok { s with tasks := s.tasks.adjust t fun t => { t with status } } := by
  have hm : s.tasks.modify s.currentTask (fun t => { t with status }) =
      .ok (s.tasks.adjust t fun t => { t with status }) := by
    rw [hc, CellStore.modify_live _ ht]
  unfold Scheduler.setStatus
  rw [hm, Except.ok_bind]
  rfl

/-- A task update that keeps the context and the address space. -/
theorem Stocked.adjust {s : Scheduler} {ns : List (Nat × Nat)} {c : Nat} (h : Stocked s ns c)
    (a : Nat) {f : Task → Task} (hc : ∀ t, (f t).context = t.context)
    (hs : ∀ t, (f t).addressSpace = t.addressSpace) :
    Stocked { s with tasks := s.tasks.adjust a f } ns c := by
  have hcell : ∀ t task, (s.tasks.adjust a f).cell t = some task →
      ∃ old, s.tasks.cell t = some old ∧ task.context = old.context ∧
        task.addressSpace = old.addressSpace := by
    intro t task ht
    rcases CellStore.adjust_cell_cases ht with ⟨-, ho⟩ | ⟨rfl, old, ho, rfl⟩
    · exact ⟨task, ho, rfl, rfl⟩
    · exact ⟨old, ho, hc old, hs old⟩
  have hlive : ∀ t task, s.tasks.cell t = some task →
      ∃ new, (s.tasks.adjust a f).cell t = some new := by
    intro t task ht
    rw [CellStore.adjust_cell, ht]
    split <;> exact ⟨_, rfl⟩
  refine ⟨⟨h.queue, ?_, ?_⟩, h.idleOut, ?_, ?_, ?_⟩
  · intro p hp
    obtain ⟨task, ht⟩ := h.queued p hp
    exact hlive _ task ht
  · obtain ⟨t, task, hi, ht⟩ := h.idle
    obtain ⟨new, hn⟩ := hlive t task ht
    exact ⟨t, new, hi, hn⟩
  · intro t task ht
    obtain ⟨old, ho, he, _⟩ := hcell t task ht
    rw [he]
    exact h.context t old ho
  · intro t task ht
    obtain ⟨old, ho, _, he⟩ := hcell t task ht
    rw [he]
    exact h.space t old ho
  · intro t u x y ht hu hne
    obtain ⟨x', hx, hx1, hx2⟩ := hcell t x ht
    obtain ⟨y', hy, hy1, hy2⟩ := hcell u y hu
    rw [hx1, hx2, hy1, hy2]
    exact h.apart t u x' y' hx hy hne

theorem Live.adjust {s : Scheduler} {ns : List (Nat × Nat)} {c : Nat} (h : Live s ns c)
    (a : Nat) {f : Task → Task} (hc : ∀ t, (f t).context = t.context)
    (hs : ∀ t, (f t).addressSpace = t.addressSpace) :
    Live { s with tasks := s.tasks.adjust a f } ns c :=
  ⟨h.toStocked.adjust a hc hs, h.current⟩

theorem Live.setStatus {s : Scheduler} {ns : List (Nat × Nat)} {c : Nat} (h : Live s ns c)
    (status : Status) : Safely (s.setStatus status) fun t => Live t ns c := by
  obtain ⟨t, task, hc, ht⟩ := h.current_task
  exact Safely.of_ok (setStatus_eq hc ht status) (h.adjust t (fun _ => rfl) fun _ => rfl)

/-- The next task of a queue that is not empty replaces the current one; the same task met
again stands for a queue without a task to run. -/
theorem Queued.skip {s : Scheduler} {ns : List (Nat × Nat)} {c a t : Nat} (h : Queued s ns c)
    (ht : ns[(c + 1) % ns.length]? = some (a, t)) :
    s.skip = .ok { s with
        queue := { s.queue with current := some a }
        currentTask := if some t = s.currentTask then s.idleTask else some t } ∧
      TaskList.Holds { s.queue with current := some a } ns ((c + 1) % ns.length) := by
  obtain ⟨hnext, hholds⟩ := h.queue.nextTask ht
  refine ⟨?_, hholds⟩
  unfold Scheduler.skip
  rw [hnext, Except.ok_bind]
  by_cases he : some t = s.currentTask
  · simp only [he, ne_eq, not_true_eq_false, if_false, if_true]
    rfl
  · simp only [he, ne_eq, not_false_eq_true, if_false, if_true, hholds.getCurrent ht, Except.ok_bind]
    rfl

theorem Queued.next_entry {s : Scheduler} {ns : List (Nat × Nat)} {c : Nat} (h : Queued s ns c)
    (hne : ns ≠ []) : ∃ a t, ns[(c + 1) % ns.length]? = some (a, t) := by
  have hc : c < ns.length := h.queue.cursor.resolve_left hne
  have hl : (c + 1) % ns.length < ns.length := Nat.mod_lt _ (by omega)
  exact ⟨ns[(c + 1) % ns.length].1, ns[(c + 1) % ns.length].2, List.getElem?_eq_getElem hl⟩

theorem nextTask_empty {q : TaskList} {c : Nat} (h : q.Holds [] c) :
    q.nextTask = .error .nullDeref := by
  have hcur : q.current = none := h.current
  unfold TaskList.nextTask
  rw [hcur]
  rfl

theorem Live.skip {s : Scheduler} {ns : List (Nat × Nat)} {c : Nat} (h : Live s ns c) :
    Safely s.skip fun t => ∃ c', Live t ns c' := by
  by_cases hne : ns = []
  · subst hne
    apply Safely.of_nullDeref
    unfold Scheduler.skip
    rw [nextTask_empty h.queue]
    rfl
  · obtain ⟨a, t, ht⟩ := h.next_entry hne
    obtain ⟨hskip, hholds⟩ := h.toQueued.skip ht
    refine Safely.of_ok hskip ⟨_, ⟨⟨⟨hholds, h.queued, h.idle⟩, h.idleOut, h.context, h.space,
      h.apart⟩, ?_⟩⟩
    by_cases he : some t = s.currentTask
    · exact Or.inl (if_pos he)
    · exact Or.inr ⟨(a, t), List.mem_of_getElem? ht, if_neg he⟩

theorem Live.turn {s : Scheduler} {ns : List (Nat × Nat)} {c : Nat} (hw : Platform)
    (h : Live s ns c) : Safely (s.turn hw) fun r => ∃ c', Live r.2 ns c' := by
  obtain ⟨t, task, hc, ht⟩ := h.current_task
  have hread : Live { s with tscReads := s.tscReads + 1 } ns c :=
    ⟨⟨⟨h.queue, h.queued, h.idle⟩, h.idleOut, h.context, h.space, h.apart⟩, h.current⟩
  unfold Scheduler.turn
  rw [read_current hc ht, Except.ok_bind]
  cases task.status with
  | running => exact ⟨c, h⟩
  | ready =>
    refine (h.setStatus .running).bind fun s' hs' => ?_
    exact Safely.of_ok rfl ⟨c, hs'⟩
  | sleeping =>
    simp only
    split
    next =>
      refine (hread.setStatus .running).bind fun s' hs' => ?_
      exact Safely.of_ok rfl ⟨c, hs'⟩
    next =>
      refine hread.skip.bind fun s' hs' => ?_
      exact Safely.of_ok rfl hs'
  | waitingIo =>
    refine h.skip.bind fun s' hs' => ?_
    exact Safely.of_ok rfl hs'

theorem Live.selectLoop (hw : Platform) (fuel : Nat) {s : Scheduler} {ns : List (Nat × Nat)}
    {c : Nat} (h : Live s ns c) : Safely (s.selectLoop hw fuel) fun t => ∃ c', Live t ns c' := by
  induction fuel generalizing s c with
  | zero =>
    refine (h.turn hw).bind ?_
    rintro ⟨stop, s'⟩ hs'
    cases stop with
    | true => exact hs'
    | false => exact Safely.of_timeout rfl
  | succ fuel ih =>
    refine (h.turn hw).bind ?_
    rintro ⟨stop, s'⟩ ⟨c', hs'⟩
    cases stop with
    | true => exact ⟨c', hs'⟩
    | false => exact ih hs'

/-- The task that a busy queue goes to is queued, whatever the current task was. -/
theorem Stocked.advance {s : Scheduler} {ns : List (Nat × Nat)} {c : Nat} (h : Stocked s ns c)
    (hne : ns ≠ []) : Safely s.advance fun t => ∃ c', Live t ns c' := by
  unfold Scheduler.advance
  rw [h.queue.isEmpty_eq, if_neg (by simpa using hne)]
  obtain ⟨a, t, ht⟩ := h.next_entry hne
  obtain ⟨hnext, hholds⟩ := h.queue.nextTask ht
  rw [hnext, Except.ok_bind]
  exact ⟨_, ⟨⟨⟨hholds, h.queued, h.idle⟩, h.idleOut, h.context, h.space, h.apart⟩,
    Or.inr ⟨(a, t), List.mem_of_getElem? ht, rfl⟩⟩⟩

theorem Live.advance {s : Scheduler} {ns : List (Nat × Nat)} {c : Nat} (h : Live s ns c) :
    Safely s.advance fun t => ∃ c', Live t ns c' := by
  by_cases hne : ns = []
  · unfold Scheduler.advance
    rw [h.queue.isEmpty_eq, if_pos (by simpa using hne)]
    exact ⟨c, h⟩
  · exact h.toStocked.advance hne

theorem Stocked.select (hw : Platform) (fuel : Nat) {s : Scheduler} {ns : List (Nat × Nat)}
    {c : Nat} (h : Stocked s ns c) (hne : ns ≠ []) :
    Safely (s.select hw fuel) fun t => ∃ c', Live t ns c' :=
  (h.advance hne).bind fun _ ⟨_, ht⟩ => ht.selectLoop hw fuel

theorem Live.select (hw : Platform) (fuel : Nat) {s : Scheduler} {ns : List (Nat × Nat)} {c : Nat}
    (h : Live s ns c) : Safely (s.select hw fuel) fun t => ∃ c', Live t ns c' :=
  h.advance.bind fun _ ⟨_, ht⟩ => ht.selectLoop hw fuel

theorem Live.loadTask (hw : Platform) {s : Scheduler} {ns : List (Nat × Nat)} {c : Nat}
    (h : Live s ns c) : Safely (s.loadTask hw) fun r => ∃ c', Live r.2 ns c' := by
  obtain ⟨t, task, hc, ht⟩ := h.current_task
  obtain ⟨r, hr⟩ := h.context t task ht
  obtain ⟨sp, hsp⟩ := h.space t task ht
  unfold Scheduler.loadTask
  rw [read_current hc ht, Except.ok_bind, CellStore.read_live hr, Except.ok_bind,
    CellStore.read_live hsp, Except.ok_bind]
  exact ⟨c, ⟨⟨⟨h.queue, h.queued, h.idle⟩, h.idleOut, h.context, h.space, h.apart⟩, h.current⟩⟩

/-- With an empty queue the current task is not looked at before it is replaced. -/
theorem Stocked.saveContext {s : Scheduler} {ns : List (Nat × Nat)} {c : Nat}
    (h : Stocked s ns c) (hcur : ns = [] ∨ CurrentIn s ns) (regs : Registers) :
    Safely (s.saveContext regs) fun t => Live t ns c := by
  unfold Scheduler.saveContext
  rw [h.queue.isEmpty_eq]
  by_cases hne : ns = []
  · rw [if_pos (by simpa using hne)]
    exact ⟨⟨⟨h.queue, h.queued, h.idle⟩, h.idleOut, h.context, h.space, h.apart⟩, Or.inl rfl⟩
  · rw [if_neg (by simpa using hne)]
    have hlive : Live s ns c := ⟨h, hcur.resolve_left hne⟩
    obtain ⟨t, task, hc, ht⟩ := hlive.current_task
    obtain ⟨r, hr⟩ := h.context t task ht
    rw [read_current hc ht, Except.ok_bind, CellStore.modify_live _ hr]
    split
    next =>
      refine ⟨⟨⟨h.queue, h.queued, h.idle⟩, h.idleOut, ?_, h.space, h.apart⟩, hlive.current⟩
      intro u b hu
      obtain ⟨x, hx⟩ := h.context u b hu
      simp only [CellStore.adjust_cell, hx]
      split <;> exact ⟨_, rfl⟩
    next => exact hlive

theorem Stocked.handler (hw : Platform) (fuel : Nat) {s : Scheduler} {ns : List (Nat × Nat)}
    {c : Nat} (h : Stocked s ns c) (hcur : ns = [] ∨ CurrentIn s ns) (regs : Registers) :
    Safely (s.handler hw fuel regs) fun r => ∃ c', Live r.2 ns c' := by
  obtain ⟨t, task, hi, ht⟩ := h.idle
  have h' : Stocked { s with realTime := u64 (s.realTime + 1) } ns c :=
    ⟨⟨h.queue, h.queued, h.idle⟩, h.idleOut, h.context, h.space, h.apart⟩
  unfold Scheduler.handler Scheduler.schedule
  rw [if_neg (by simp [hi])]
  exact (h'.saveContext hcur regs).bind fun s₁ hs₁ =>
    (hs₁.select hw fuel).bind fun s₂ ⟨_, hs₂⟩ => hs₂.loadTask hw

end Scheduler

end UmbraOS
