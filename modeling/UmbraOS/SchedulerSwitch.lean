import UmbraOS.SchedulerSelect

namespace UmbraOS

namespace Scheduler

variable {hw : Platform}

/-- What a selection that reads the time stamps from `lo` to `hi` may do to a task: a ready one
and a sleeping one past its deadline are made running. -/
def Roused (hw : Platform) (lo hi : Nat) (before after : Option Task) : Prop :=
  after = before ∨ ∃ task, before = some task ∧ after = some { task with status := .running } ∧
    (task.status = .ready ∨
      task.status = .sleeping ∧ ∃ i, lo ≤ i ∧ i < hi ∧ task.tscSleep ≤ hw.tsc i)

theorem Roused.widen {lo hi lo' hi' : Nat} {before after : Option Task}
    (h : Roused hw lo hi before after) (hlo : lo' ≤ lo) (hhi : hi ≤ hi') :
    Roused hw lo' hi' before after := by
  rcases h with h | ⟨task, hb, ha, hs | ⟨hs, i, hli, hih, hle⟩⟩
  · exact Or.inl h
  · exact Or.inr ⟨task, hb, ha, Or.inl hs⟩
  · exact Or.inr ⟨task, hb, ha, Or.inr ⟨hs, i, by omega, by omega, hle⟩⟩

theorem Roused.trans {lo mid hi : Nat} {x y z : Option Task} (hxy : Roused hw lo mid x y)
    (hyz : Roused hw mid hi y z) (hlo : lo ≤ mid) (hhi : mid ≤ hi) : Roused hw lo hi x z := by
  obtain rfl | ⟨task, hx, hy, hs⟩ := id hxy
  · exact hyz.widen hlo (le_refl _)
  · obtain rfl | ⟨task', hy', _, hs'⟩ := hyz
    · exact hxy.widen (le_refl _) hhi
    · rw [hy] at hy'
      obtain rfl := Option.some.inj hy'
      rcases hs' with hs' | ⟨hs', _⟩ <;> cases hs'

/-- What the selection leaves alone, and what it may do to each task. -/
structure Moves (hw : Platform) (s s' : Scheduler) : Prop where
  idleTask : s'.idleTask = s.idleTask
  contexts : s'.contexts = s.contexts
  spaces : s'.spaces = s.spaces
  next : s'.tasks.next = s.tasks.next
  reads : s.tscReads ≤ s'.tscReads
  task : ∀ t, Roused hw s.tscReads s'.tscReads (s.tasks.cell t) (s'.tasks.cell t)

theorem Moves.refl (s : Scheduler) : Moves hw s s :=
  ⟨rfl, rfl, rfl, rfl, le_refl _, fun _ => Or.inl rfl⟩

theorem Moves.trans {s s' s'' : Scheduler} (h : Moves hw s s') (h' : Moves hw s' s'') :
    Moves hw s s'' where
  idleTask := h'.idleTask.trans h.idleTask
  contexts := h'.contexts.trans h.contexts
  spaces := h'.spaces.trans h.spaces
  next := h'.next.trans h.next
  reads := Nat.le_trans h.reads h'.reads
  task t := (h.task t).trans (h'.task t) h.reads h'.reads

/-- The current task is made running by a turn of the loop. -/
theorem Moves.setRunning {s : Scheduler} {t : Nat} {task : Task} (reads : Nat)
    (ht : s.tasks.cell t = some task) (hr : s.tscReads ≤ reads)
    (hs : task.status = .ready ∨ task.status = .sleeping ∧
      ∃ i, s.tscReads ≤ i ∧ i < reads ∧ task.tscSleep ≤ hw.tsc i) :
    Moves hw s { s with
      tscReads := reads
      tasks := s.tasks.adjust t fun t => { t with status := .running } } := by
  refine ⟨rfl, rfl, rfl, rfl, hr, fun u => ?_⟩
  by_cases hu : u = t
  · subst hu
    exact Or.inr ⟨task, ht, CellStore.adjust_cell_self _ ht, hs⟩
  · exact Or.inl (CellStore.adjust_cell_ne _ _ hu)

/-- The loop looks at the idle task or at the task at the cursor. -/
def Looks (s : Scheduler) (ns : List (Nat × Nat)) (c : Nat) : Prop :=
  s.currentTask = s.idleTask ∨ ns ≠ [] ∧ s.currentTask = taskAt ns c

theorem Queued.looks_live {s : Scheduler} {ns : List (Nat × Nat)} {c : Nat} (h : Queued s ns c)
    (hl : Looks s ns c) : ∃ t task, s.currentTask = some t ∧ s.tasks.cell t = some task := by
  rcases hl with hc | ⟨hne, hc⟩
  · rw [hc]
    exact h.idle
  · rw [hc]
    exact h.taskAt_live hne c

/-- The task at the cursor of a queue. -/
theorem Queued.taskAt_cursor {s : Scheduler} {ns : List (Nat × Nat)} {c : Nat}
    (h : Queued s ns c) (hne : ns ≠ []) : taskAt ns c = ns[c]?.map Prod.snd := by
  have hc : c < ns.length := h.queue.cursor.resolve_left hne
  unfold taskAt
  rw [Nat.mod_eq_of_lt hc]

theorem Queued.skip_looks {s s' : Scheduler} {ns : List (Nat × Nat)} {c : Nat} (h : Queued s ns c)
    (hs : s.skip = .ok s') : ∃ c', Queued s' ns c' ∧ Looks s' ns c' ∧ Moves hw s s' := by
  have hne : ns ≠ [] := by
    rintro rfl
    unfold Scheduler.skip at hs
    rw [nextTask_empty h.queue] at hs
    cases hs
  obtain ⟨u, hu, hskip⟩ := h.skip_skips hne
  rw [hs] at hu
  obtain rfl := Except.ok.inj hu
  refine ⟨_, hskip.queued, ?_, ?_⟩
  · have hpos := taskAt_mod ns (c + 1) 0
    rw [Nat.add_zero, Nat.add_zero] at hpos
    unfold Looks
    rw [hskip.current, hskip.idleTask, hpos]
    split
    next => exact Or.inl rfl
    next => exact Or.inr ⟨hne, rfl⟩
  · obtain ⟨a, t, ht⟩ := h.next_entry hne
    obtain ⟨heq, _⟩ := h.skip ht
    rw [hs] at heq
    obtain rfl := Except.ok.inj heq
    exact ⟨rfl, rfl, rfl, rfl, le_refl _, fun _ => Or.inl rfl⟩

def CurrentRuns (s : Scheduler) : Prop :=
  ∃ t task, s.currentTask = some t ∧ s.tasks.cell t = some task ∧ task.status = .running

theorem Queued.adjust {s : Scheduler} {ns : List (Nat × Nat)} {c : Nat} (h : Queued s ns c)
    (a : Nat) (f : Task → Task) (reads : Nat) :
    Queued { s with tscReads := reads, tasks := s.tasks.adjust a f } ns c := by
  have hlive : ∀ t task, s.tasks.cell t = some task →
      ∃ new, (s.tasks.adjust a f).cell t = some new := by
    intro t task ht
    rw [CellStore.adjust_cell, ht]
    split <;> exact ⟨_, rfl⟩
  refine ⟨h.queue, fun p hp => ?_, ?_⟩
  · obtain ⟨task, ht⟩ := h.queued p hp
    exact hlive _ task ht
  · obtain ⟨t, task, hi, ht⟩ := h.idle
    obtain ⟨new, hn⟩ := hlive t task ht
    exact ⟨t, new, hi, hn⟩

theorem turn_looks {s s' : Scheduler} {ns : List (Nat × Nat)} {c : Nat} {stop : Bool}
    (h : Queued s ns c) (hl : Looks s ns c) (hs : s.turn hw = .ok (stop, s')) :
    (∃ c', Queued s' ns c' ∧ Looks s' ns c') ∧ Moves hw s s' ∧ (stop = true → CurrentRuns s') := by
  obtain ⟨t, task, hc, ht⟩ := h.looks_live hl
  have hread : Queued { s with tscReads := s.tscReads + 1 } ns c := ⟨h.queue, h.queued, h.idle⟩
  unfold Scheduler.turn at hs
  rw [read_current hc ht, Except.ok_bind] at hs
  cases hst : task.status with
  | running =>
    simp only [hst] at hs
    cases hs
    exact ⟨⟨c, h, hl⟩, Moves.refl s, fun _ => ⟨t, task, hc, ht, hst⟩⟩
  | ready =>
    simp only [hst, setStatus_eq hc ht, Except.ok_bind] at hs
    cases hs
    exact ⟨⟨c, h.adjust t _ _, hl⟩, Moves.setRunning _ ht (le_refl _) (Or.inl hst),
      fun _ => ⟨t, _, hc, CellStore.adjust_cell_self _ ht, rfl⟩⟩
  | sleeping =>
    simp only [hst] at hs
    split at hs
    next hle =>
      have hset := setStatus_eq (s := { s with tscReads := s.tscReads + 1 }) hc ht .running
      rw [hset, Except.ok_bind] at hs
      cases hs
      refine ⟨⟨c, h.adjust t _ _, hl⟩, ?_, fun hstop => Bool.noConfusion hstop⟩
      apply Moves.setRunning _ ht (Nat.le_succ _)
      exact Or.inr ⟨hst, s.tscReads, le_refl _, Nat.lt_succ_self _, hle⟩
    next =>
      obtain ⟨s₁, hskip, hs⟩ := Except.bind_eq_ok.mp hs
      cases hs
      obtain ⟨c', hq, hlook, hmoves⟩ := hread.skip_looks hskip
      have hstep : Moves hw s { s with tscReads := s.tscReads + 1 } :=
        ⟨rfl, rfl, rfl, rfl, Nat.le_succ _, fun _ => Or.inl rfl⟩
      exact ⟨⟨c', hq, hlook⟩, hstep.trans hmoves, fun hstop => Bool.noConfusion hstop⟩
  | waitingIo =>
    simp only [hst] at hs
    obtain ⟨s₁, hskip, hs⟩ := Except.bind_eq_ok.mp hs
    cases hs
    obtain ⟨c', hq, hlook, hmoves⟩ := h.skip_looks hskip
    exact ⟨⟨c', hq, hlook⟩, hmoves, fun hstop => Bool.noConfusion hstop⟩

/-- The loop ends at a running task: the one at the cursor, or the idle task. -/
theorem selectLoop_looks {s s' : Scheduler} {ns : List (Nat × Nat)} {c : Nat} (fuel : Nat)
    (h : Queued s ns c) (hl : Looks s ns c) (hs : s.selectLoop hw fuel = .ok s') :
    (∃ c', Queued s' ns c' ∧ Looks s' ns c') ∧ Moves hw s s' ∧ CurrentRuns s' := by
  induction fuel generalizing s c with
  | zero =>
    obtain ⟨⟨stop, s₁⟩, hturn, hs⟩ := Except.bind_eq_ok.mp hs
    obtain ⟨hat, hmoves, hruns⟩ := turn_looks h hl hturn
    cases stop with
    | true =>
      cases hs
      exact ⟨hat, hmoves, hruns rfl⟩
    | false => cases hs
  | succ fuel ih =>
    obtain ⟨⟨stop, s₁⟩, hturn, hs⟩ := Except.bind_eq_ok.mp hs
    obtain ⟨⟨c₁, hq₁, hl₁⟩, hmoves, hruns⟩ := turn_looks h hl hturn
    cases stop with
    | true =>
      cases hs
      exact ⟨⟨c₁, hq₁, hl₁⟩, hmoves, hruns rfl⟩
    | false =>
      obtain ⟨hat, hmoves', hruns'⟩ := ih hq₁ hl₁ hs
      exact ⟨hat, hmoves.trans hmoves', hruns'⟩

/-- What `schedule` does, entered with the registers `regs` and left with `context`. -/
structure Switched (hw : Platform) (regs context : Registers) (s s' : Scheduler)
    (ns : List (Nat × Nat)) : Prop where
  cursor : ∃ c', Queued s' ns c' ∧ Looks s' ns c'
  idleTask : s'.idleTask = s.idleTask
  spaces : s'.spaces = s.spaces
  next : s'.tasks.next = s.tasks.next
  reads : s.tscReads ≤ s'.tscReads
  task : ∀ t, Roused hw s.tscReads s'.tscReads (s.tasks.cell t) (s'.tasks.cell t)
  runs : CurrentRuns s'
  saves : ns = [] ∧ s'.contexts = s.contexts ∨ ns ≠ [] ∧ ∃ t task, s.currentTask = some t ∧
    s.tasks.cell t = some task ∧ s'.contexts = if task.status = .ready then s.contexts
      else s.contexts.adjust task.context fun _ => regs
  loads : ∃ t task, s'.currentTask = some t ∧ s'.tasks.cell t = some task ∧
    s'.contexts.cell task.context = some context

theorem loadTask_ok {s s' : Scheduler} {context : Registers}
    (h : s.loadTask hw = .ok (context, s')) : (∃ cr3, s' = { s with cr3 }) ∧
      ∃ t task, s.currentTask = some t ∧ s.tasks.cell t = some task ∧
        s.contexts.cell task.context = some context := by
  obtain ⟨task, htask, h⟩ := Except.bind_eq_ok.mp h
  obtain ⟨r, hr, h⟩ := Except.bind_eq_ok.mp h
  obtain ⟨space, _, h⟩ := Except.bind_eq_ok.mp h
  cases h
  obtain ⟨t, hc, ht⟩ := CellStore.read_eq_ok.mp htask
  have hr := CellStore.read_some_ok.mp hr
  exact ⟨⟨_, rfl⟩, t, task, hc, ht, hr⟩

theorem Queued.select_looks {s s' : Scheduler} {ns : List (Nat × Nat)} {c fuel : Nat}
    (h : Queued s ns c) (hidle : ns = [] → s.currentTask = s.idleTask)
    (hs : s.select hw fuel = .ok s') :
    (∃ c', Queued s' ns c' ∧ Looks s' ns c') ∧ Moves hw s s' ∧ CurrentRuns s' := by
  obtain ⟨s₁, hadvance, hloop⟩ := Except.bind_eq_ok.mp hs
  unfold Scheduler.advance at hadvance
  rw [h.queue.isEmpty_eq] at hadvance
  by_cases hne : ns = []
  · rw [if_pos (by simpa using hne)] at hadvance
    cases hadvance
    exact selectLoop_looks fuel h (Or.inl (hidle hne)) hloop
  · rw [if_neg (by simpa using hne)] at hadvance
    obtain ⟨a, t, ht⟩ := h.next_entry hne
    obtain ⟨hnext, hholds⟩ := h.queue.nextTask ht
    rw [hnext, Except.ok_bind] at hadvance
    cases hadvance
    have hfirst : some t = taskAt ns ((c + 1) % ns.length) := by
      unfold taskAt
      rw [Nat.mod_mod, ht]
      rfl
    obtain ⟨hat, hmoves, hruns⟩ := selectLoop_looks fuel
      (s := { s with currentTask := some t, queue := { s.queue with current := some a } })
      ⟨hholds, h.queued, h.idle⟩ (Or.inr ⟨hne, hfirst⟩) hloop
    exact ⟨hat, ⟨hmoves.idleTask, hmoves.contexts, hmoves.spaces, hmoves.next, hmoves.reads,
      hmoves.task⟩, hruns⟩

/-- The current task need not be queued: it may have been taken out just before. -/
theorem Queued.handler_switched {s s' : Scheduler} {ns : List (Nat × Nat)} {c fuel : Nat}
    {regs context : Registers} (h : Queued s ns c)
    (hs : s.handler hw fuel regs = .ok (context, s')) : Switched hw regs context s s' ns := by
  obtain ⟨ti, taski, hi, hti⟩ := h.idle
  unfold Scheduler.handler Scheduler.schedule at hs
  rw [if_neg (by simp [hi])] at hs
  obtain ⟨s₁, hsave, hs⟩ := Except.bind_eq_ok.mp hs
  obtain ⟨s₂, hselect, hload⟩ := Except.bind_eq_ok.mp hs
  have hsaved : (Queued s₁ ns c ∧ (ns = [] → s₁.currentTask = s₁.idleTask)) ∧
      (s₁.idleTask = s.idleTask ∧ s₁.spaces = s.spaces ∧ s₁.tasks = s.tasks ∧
        s₁.tscReads = s.tscReads) ∧
      (ns = [] ∧ s₁.contexts = s.contexts ∨ ns ≠ [] ∧ ∃ t task, s.currentTask = some t ∧
        s.tasks.cell t = some task ∧ s₁.contexts = if task.status = .ready then s.contexts
          else s.contexts.adjust task.context fun _ => regs) := by
    unfold Scheduler.saveContext at hsave
    rw [h.queue.isEmpty_eq] at hsave
    by_cases hne : ns = []
    · rw [if_pos (by simpa using hne)] at hsave
      cases hsave
      exact ⟨⟨⟨h.queue, h.queued, h.idle⟩, fun _ => rfl⟩, ⟨rfl, rfl, rfl, rfl⟩,
        Or.inl ⟨hne, rfl⟩⟩
    · rw [if_neg (by simpa using hne)] at hsave
      obtain ⟨task, htask, hsave⟩ := Except.bind_eq_ok.mp hsave
      obtain ⟨t, hc, ht⟩ := CellStore.read_eq_ok.mp htask
      split at hsave
      next hready =>
        obtain ⟨contexts, hmod, hsave⟩ := Except.bind_eq_ok.mp hsave
        cases hsave
        obtain ⟨-, -, hadj⟩ := CellStore.modify_some_ok.mp hmod
        refine ⟨⟨⟨h.queue, h.queued, h.idle⟩, fun he => absurd he hne⟩, ⟨rfl, rfl, rfl, rfl⟩,
          Or.inr ⟨hne, t, task, hc, ht, ?_⟩⟩
        rw [if_neg hready]
        exact hadj
      next hready =>
        cases hsave
        refine ⟨⟨⟨h.queue, h.queued, h.idle⟩, fun he => absurd he hne⟩, ⟨rfl, rfl, rfl, rfl⟩,
          Or.inr ⟨hne, t, task, hc, ht, ?_⟩⟩
        rw [if_pos (not_not.mp hready)]
  obtain ⟨⟨hq₁, hidle₁⟩, ⟨hidle, hspaces, htasks, hreads⟩, hsaves⟩ := hsaved
  obtain ⟨⟨c', hq₂, hl₂⟩, hmoves, hruns⟩ := hq₁.select_looks hidle₁ hselect
  obtain ⟨⟨cr3, rfl⟩, hloads⟩ := loadTask_ok hload
  refine ⟨⟨c', ⟨hq₂.queue, hq₂.queued, hq₂.idle⟩, hl₂⟩, hmoves.idleTask.trans hidle,
    hmoves.spaces.trans hspaces, ?_, ?_, ?_, hruns, ?_, hloads⟩
  · rw [← htasks]
    exact hmoves.next
  · rw [← hreads]
    exact hmoves.reads
  · intro t
    rw [← hreads, ← htasks]
    exact hmoves.task t
  · show ns = [] ∧ s₂.contexts = s.contexts ∨ _
    rw [hmoves.contexts]
    exact hsaves

end Scheduler

end UmbraOS
