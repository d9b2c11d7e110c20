import UmbraOS.SchedulerSafety

namespace UmbraOS

namespace Scheduler

/-- What the selection loop resumes: a task that is ready, running, or past its deadline. -/
def Runnable (hw : Platform) (s : Scheduler) (task : Task) : Prop :=
  task.status = .ready ∨ task.status = .running ∨
    task.status = .sleeping ∧ task.tscSleep ≤ hw.tsc s.tscReads

def CanRun (hw : Platform) (s : Scheduler) (p : Option Nat) : Prop :=
  ∃ t task, p = some t ∧ s.tasks.cell t = some task ∧ Runnable hw s task

/-- The time stamp counter does not pass a deadline from here on. -/
def ClockHolds (hw : Platform) (s : Scheduler) : Prop :=
  ∀ i, s.tscReads ≤ i → ∀ t task, s.tasks.cell t = some task →
    (task.tscSleep ≤ hw.tsc i ↔ task.tscSleep ≤ hw.tsc s.tscReads)

/-- The task at a position of the queue, taken cyclically. -/
def taskAt (ns : List (Nat × Nat)) (i : Nat) : Option Nat := ns[i % ns.length]?.map Prod.snd

theorem taskAt_mod (ns : List (Nat × Nat)) (i j : Nat) :
    taskAt ns (i % ns.length + j) = taskAt ns (i + j) := by
  unfold taskAt
  rw [Nat.mod_add_mod]

theorem taskAt_mem {ns : List (Nat × Nat)} {i t : Nat} (h : taskAt ns i = some t) :
    ∃ p ∈ ns, p.2 = t := by
  unfold taskAt at h
  obtain ⟨p, hp, rfl⟩ := Option.map_eq_some_iff.mp h
  exact ⟨p, List.mem_of_getElem? hp, rfl⟩

theorem taskAt_of_mem {ns : List (Nat × Nat)} {p : Nat × Nat} (hp : p ∈ ns) :
    ∃ i < ns.length, taskAt ns i = some p.2 := by
  obtain ⟨i, hi, he⟩ := List.getElem_of_mem hp
  refine ⟨i, hi, ?_⟩
  unfold taskAt
  rw [Nat.mod_eq_of_lt hi, List.getElem?_eq_getElem hi, he]
  rfl

theorem Queued.taskAt_live {s : Scheduler} {ns : List (Nat × Nat)} {c : Nat} (h : Queued s ns c)
    (hne : ns ≠ []) (i : Nat) :
    ∃ t task, taskAt ns i = some t ∧ s.tasks.cell t = some task := by
  have hl : i % ns.length < ns.length := Nat.mod_lt _ (List.length_pos_of_ne_nil hne)
  have ht : taskAt ns i = some ns[i % ns.length].2 := by
    unfold taskAt
    rw [List.getElem?_eq_getElem hl]
    rfl
  obtain ⟨task, hc⟩ := h.queued _ (List.getElem_mem hl)
  exact ⟨_, task, ht, hc⟩

theorem not_canRun {hw : Platform} {s : Scheduler} {t : Nat} {task : Task} {p : Option Nat}
    (hp : p = some t) (ht : s.tasks.cell t = some task) :
    ¬CanRun hw s p ↔ ¬Runnable hw s task := by
  have hiff : CanRun hw s p ↔ Runnable hw s task := by
    constructor
    · rintro ⟨u, task', hu, ht', hr⟩
      rw [hp] at hu
      cases hu
      rw [ht] at ht'
      cases ht'
      exact hr
    · exact fun hr => ⟨t, task, hp, ht, hr⟩
  rw [hiff]

/-- What a turn does with a task that cannot run. -/
structure Skips (s s' : Scheduler) (ns : List (Nat × Nat)) (c : Nat) : Prop where
  queued : Queued s' ns ((c + 1) % ns.length)
  tasks : s'.tasks = s.tasks
  idleTask : s'.idleTask = s.idleTask
  reads : s.tscReads ≤ s'.tscReads
  current : s'.currentTask =
    if taskAt ns (c + 1) = s.currentTask then s.idleTask else taskAt ns (c + 1)

theorem Skips.clock {hw : Platform} {s s' : Scheduler} {ns : List (Nat × Nat)} {c : Nat}
    (h : Skips s s' ns c) (hclock : ClockHolds hw s) : ClockHolds hw s' := by
  intro i hi t task ht
  rw [h.tasks] at ht
  have hreads := h.reads
  rw [hclock i (by omega) t task ht, hclock _ hreads t task ht]

theorem Skips.canRun {hw : Platform} {s s' : Scheduler} {ns : List (Nat × Nat)} {c : Nat}
    (h : Skips s s' ns c) (hclock : ClockHolds hw s) (p : Option Nat) :
    CanRun hw s' p ↔ CanRun hw s p := by
  have hrun : ∀ t task, s.tasks.cell t = some task → (Runnable hw s' task ↔ Runnable hw s task) := by
    intro t task ht
    unfold Runnable
    rw [hclock _ h.reads t task ht]
  unfold CanRun
  rw [h.tasks]
  constructor
  · rintro ⟨t, task, hp, ht, hr⟩
    exact ⟨t, task, hp, ht, (hrun t task ht).mp hr⟩
  · rintro ⟨t, task, hp, ht, hr⟩
    exact ⟨t, task, hp, ht, (hrun t task ht).mpr hr⟩

theorem Queued.skip_skips {s : Scheduler} {ns : List (Nat × Nat)} {c : Nat} (h : Queued s ns c)
    (hne : ns ≠ []) : ∃ s', s.skip = .ok s' ∧ Skips s s' ns c := by
  obtain ⟨a, t, ht⟩ := h.next_entry hne
  obtain ⟨hskip, hholds⟩ := h.skip ht
  have htask : taskAt ns (c + 1) = some t := by
    unfold taskAt
    rw [ht]
    rfl
  refine ⟨_, hskip, ⟨⟨hholds, h.queued, h.idle⟩, rfl, rfl, le_refl _, ?_⟩⟩
  rw [htask]

theorem turn_blocked {hw : Platform} {s : Scheduler} {ns : List (Nat × Nat)} {c : Nat}
    (h : Queued s ns c) (hne : ns ≠ []) (hlive : ∃ t task, s.currentTask = some t ∧
      s.tasks.cell t = some task) (hblocked : ¬CanRun hw s s.currentTask) :
    ∃ s', s.turn hw = .ok (false, s') ∧ Skips s s' ns c := by
  obtain ⟨t, task, hc, ht⟩ := hlive
  rw [not_canRun hc ht] at hblocked
  unfold Scheduler.turn
  rw [read_current hc ht, Except.ok_bind]
  cases hs : task.status with
  | running => exact absurd (Or.inr (Or.inl hs)) hblocked
  | ready => exact absurd (Or.inl hs) hblocked
  | sleeping =>
    have hlate : ¬hw.tsc s.tscReads ≥ task.tscSleep := fun hle =>
      hblocked (Or.inr (Or.inr ⟨hs, hle⟩))
    have hread : Queued { s with tscReads := s.tscReads + 1 } ns c := ⟨h.queue, h.queued, h.idle⟩
    obtain ⟨s', hskip, hs'⟩ := hread.skip_skips hne
    simp only [if_neg hlate, hskip, Except.ok_bind]
    exact ⟨s', rfl, hs'.queued, hs'.tasks, hs'.idleTask, Nat.le_of_succ_le hs'.reads, hs'.current⟩
  | waitingIo =>
    obtain ⟨s', hskip, hs'⟩ := h.skip_skips hne
    simp only [hskip, Except.ok_bind]
    exact ⟨s', rfl, hs'⟩

theorem selectLoop_stop {hw : Platform} {s s' : Scheduler} (h : s.turn hw = .ok (true, s'))
    (fuel : Nat) : s.selectLoop hw fuel = .ok s' := by
  cases fuel <;> simp only [selectLoop, h, Except.ok_bind, if_true] <;> rfl

theorem selectLoop_continue {hw : Platform} {s s' : Scheduler} (h : s.turn hw = .ok (false, s'))
    (fuel : Nat) : s.selectLoop hw (fuel + 1) = s'.selectLoop hw fuel := by
  simp only [selectLoop, h, Except.ok_bind, Bool.false_eq_true, if_false]

theorem selectLoop_stall {hw : Platform} {s s' : Scheduler} (h : s.turn hw = .ok (false, s')) :
    s.selectLoop hw 0 = .error .timeout := by
  simp only [selectLoop, h, Except.ok_bind, Bool.false_eq_true, if_false]

/-- A task that can run is resumed within two turns. -/
theorem selectLoop_canRun {hw : Platform} {s : Scheduler} (h : CanRun hw s s.currentTask) :
    ∃ s', s'.currentTask = s.currentTask ∧ (∀ fuel, s.selectLoop hw (fuel + 1) = .ok s') ∧
      (s.selectLoop hw 0 = .ok s' ∨ s.selectLoop hw 0 = .error .timeout) := by
  obtain ⟨t, task, hc, ht, hr⟩ := h
  have hturn := read_current hc ht
  rcases hr with hs | hs | ⟨hs, hle⟩
  · let s₁ : Scheduler := { s with tasks := s.tasks.adjust t fun t => { t with status := .running } }
    have hstop : s.turn hw = .ok (true, s₁) := by
      unfold Scheduler.turn
      rw [hturn, Except.ok_bind]
      simp only [hs, setStatus_eq hc ht, Except.ok_bind]
      rfl
    exact ⟨s₁, rfl, fun fuel => selectLoop_stop hstop _, Or.inl (selectLoop_stop hstop 0)⟩
  · have hstop : s.turn hw = .ok (true, s) := by
      unfold Scheduler.turn
      rw [hturn, Except.ok_bind]
      simp only [hs]
      rfl
    exact ⟨s, rfl, fun fuel => selectLoop_stop hstop _, Or.inl (selectLoop_stop hstop 0)⟩
  · let s₁ : Scheduler := { s with
      tscReads := s.tscReads + 1
      tasks := s.tasks.adjust t fun t => { t with status := .running } }
    have hset : setStatus { s with tscReads := s.tscReads + 1 } .running = .ok s₁ :=
      setStatus_eq (s := { s with tscReads := s.tscReads + 1 }) hc ht .running
    have hgo : s.turn hw = .ok (false, s₁) := by
      unfold Scheduler.turn
      rw [hturn, Except.ok_bind]
      simp only [hs, ge_iff_le, if_pos hle, hset, Except.ok_bind]
      rfl
    have hstop : s₁.turn hw = .ok (true, s₁) := by
      unfold Scheduler.turn
      rw [show s₁.tasks.read s₁.currentTask = .ok { task with status := .running } from
        read_current hc (CellStore.adjust_cell_self _ ht), Except.ok_bind]
      rfl
    refine ⟨s₁, rfl, fun fuel => ?_, Or.inr (selectLoop_stall hgo)⟩
    rw [selectLoop_continue hgo, selectLoop_stop hstop]

/-- The loop is at a position of the queue: it looks at the task there, or at the idle task. -/
structure Selecting (s : Scheduler) (ns : List (Nat × Nat)) (c : Nat) : Prop where
  queued : Queued s ns c
  busy : ns ≠ []
  current : s.currentTask = taskAt ns c ∨ s.currentTask = s.idleTask

theorem Selecting.live {s : Scheduler} {ns : List (Nat × Nat)} {c : Nat} (h : Selecting s ns c) :
    ∃ t task, s.currentTask = some t ∧ s.tasks.cell t = some task := by
  rcases h.current with hc | hc
  · rw [hc]
    exact h.queued.taskAt_live h.busy c
  · rw [hc]
    exact h.queued.idle

theorem Selecting.next {hw : Platform} {s : Scheduler} {ns : List (Nat × Nat)} {c : Nat}
    (h : Selecting s ns c) (hblocked : ¬CanRun hw s s.currentTask) :
    ∃ s', s.turn hw = .ok (false, s') ∧ Skips s s' ns c ∧
      Selecting s' ns ((c + 1) % ns.length) := by
  obtain ⟨s', hturn, hskip⟩ := turn_blocked h.queued h.busy h.live hblocked
  refine ⟨s', hturn, hskip, hskip.queued, h.busy, ?_⟩
  have hpos := taskAt_mod ns (c + 1) 0
  rw [Nat.add_zero, Nat.add_zero] at hpos
  rw [hskip.current, hskip.idleTask, hpos]
  split
  next => exact Or.inr rfl
  next => exact Or.inl rfl

/-- The loop reaches the next task of the queue that can run, or stops before it. -/
theorem selectLoop_reaches {hw : Platform} (d : Nat) {s : Scheduler} {ns : List (Nat × Nat)}
    {c : Nat} (h : Selecting s ns c) (hclock : 0 < d → ClockHolds hw s)
    (hcur : s.currentTask = taskAt ns c ∨ ¬CanRun hw s (taskAt ns c))
    (hrun : CanRun hw s (taskAt ns (c + d))) : ∃ fuel s', s.selectLoop hw fuel = .ok s' := by
  by_cases hr : CanRun hw s s.currentTask
  · obtain ⟨s', _, hs', _⟩ := selectLoop_canRun hr
    exact ⟨1, s', hs' 0⟩
  induction d generalizing s c with
  | zero =>
    rcases hcur with hc | hc
    · exact absurd (hc ▸ hrun) hr
    · exact absurd hrun hc
  | succ d ih =>
    have hclock := hclock (Nat.succ_pos d)
    obtain ⟨s₁, hturn, hskip, hsel⟩ := h.next hr
    have hpos := taskAt_mod ns (c + 1)
    have hnext : s₁.currentTask = taskAt ns ((c + 1) % ns.length) ∨
        ¬CanRun hw s₁ (taskAt ns ((c + 1) % ns.length)) := by
      have hpos0 := hpos 0
      rw [Nat.add_zero, Nat.add_zero] at hpos0
      rw [hskip.current, hpos0, hskip.canRun hclock]
      split
      next he =>
        rw [he]
        exact Or.inr hr
      next => exact Or.inl rfl
    have hahead : CanRun hw s₁ (taskAt ns ((c + 1) % ns.length + d)) := by
      rw [hskip.canRun hclock, hpos, show c + 1 + d = c + (d + 1) by omega]
      exact hrun
    by_cases hr₁ : CanRun hw s₁ s₁.currentTask
    · obtain ⟨s', _, hs', _⟩ := selectLoop_canRun hr₁
      exact ⟨2, s', (selectLoop_continue hturn 1).trans (hs' 0)⟩
    · obtain ⟨fuel, s', hs'⟩ := ih hsel (fun _ => hskip.clock hclock) hnext hahead hr₁
      exact ⟨fuel + 1, s', (selectLoop_continue hturn fuel).trans hs'⟩

/-- Two equal entries in a row send the loop to the idle task. -/
theorem selectLoop_repeats {hw : Platform} (d : Nat) {s : Scheduler} {ns : List (Nat × Nat)}
    {c : Nat} (h : Selecting s ns c) (hclock : ClockHolds hw s) (hidle : CanRun hw s s.idleTask)
    (hrep : taskAt ns (c + d) = taskAt ns (c + d + 1)) :
    ∃ fuel s', s.selectLoop hw fuel = .ok s' := by
  induction d generalizing s c with
  | zero =>
    by_cases hr : CanRun hw s s.currentTask
    · obtain ⟨s', _, hs', _⟩ := selectLoop_canRun hr
      exact ⟨1, s', hs' 0⟩
    obtain ⟨s₁, hturn, hskip, hsel⟩ := h.next hr
    have hc : s.currentTask = taskAt ns c := by
      rcases h.current with hc | hc
      · exact hc
      · exact absurd (hc ▸ hidle) hr
    have hsame : taskAt ns (c + 1) = taskAt ns c := hrep.symm
    have hr₁ : CanRun hw s₁ s₁.currentTask := by
      rw [hskip.canRun hclock, hskip.current, hc, if_pos hsame]
      exact hidle
    obtain ⟨s', _, hs', _⟩ := selectLoop_canRun hr₁
    exact ⟨2, s', (selectLoop_continue hturn 1).trans (hs' 0)⟩
  | succ d ih =>
    by_cases hr : CanRun hw s s.currentTask
    · obtain ⟨s', _, hs', _⟩ := selectLoop_canRun hr
      exact ⟨1, s', hs' 0⟩
    obtain ⟨s₁, hturn, hskip, hsel⟩ := h.next hr
    have hidle₁ : CanRun hw s₁ s₁.idleTask := by
      rw [hskip.canRun hclock, hskip.idleTask]
      exact hidle
    have hrep₁ : taskAt ns ((c + 1) % ns.length + d) = taskAt ns ((c + 1) % ns.length + d + 1) := by
      rw [Nat.add_assoc, taskAt_mod, taskAt_mod, show c + 1 + d = c + (d + 1) by omega,
        show c + 1 + (d + 1) = c + (d + 1) + 1 by omega]
      exact hrep
    obtain ⟨fuel, s', hs'⟩ := ih hsel (hskip.clock hclock) hidle₁ hrep₁
    exact ⟨fuel + 1, s', (selectLoop_continue hturn fuel).trans hs'⟩

/-- Without a task to run and without two equal entries in a row the loop goes round for
ever; so it does when the idle task itself cannot run. -/
theorem selectLoop_stuck {hw : Platform} (fuel : Nat) {s : Scheduler} {ns : List (Nat × Nat)}
    {c : Nat} (h : Selecting s ns c) (hclock : ClockHolds hw s)
    (hnone : ∀ i, ¬CanRun hw s (taskAt ns i))
    (hcase : ¬CanRun hw s s.idleTask ∨
      s.currentTask = taskAt ns c ∧ ∀ i, taskAt ns i ≠ taskAt ns (i + 1)) :
    s.selectLoop hw fuel = .error .timeout := by
  have hr : ¬CanRun hw s s.currentTask := by
    rcases h.current with hc | hc
    · exact hc ▸ hnone c
    · rcases hcase with hi | ⟨ht, _⟩
      · exact hc ▸ hi
      · exact ht ▸ hnone c
  induction fuel generalizing s c with
  | zero =>
    obtain ⟨s₁, hturn, _, _⟩ := h.next hr
    exact selectLoop_stall hturn
  | succ fuel ih =>
    obtain ⟨s₁, hturn, hskip, hsel⟩ := h.next hr
    have hnone₁ : ∀ i, ¬CanRun hw s₁ (taskAt ns i) := fun i => by
      rw [hskip.canRun hclock]
      exact hnone i
    have hpos := taskAt_mod ns (c + 1) 0
    rw [Nat.add_zero, Nat.add_zero] at hpos
    have hcase₁ : ¬CanRun hw s₁ s₁.idleTask ∨
        s₁.currentTask = taskAt ns ((c + 1) % ns.length) ∧ ∀ i, taskAt ns i ≠ taskAt ns (i + 1) := by
      rcases hcase with hi | ⟨ht, hd⟩
      · rw [hskip.canRun hclock, hskip.idleTask]
        exact Or.inl hi
      · rw [hskip.current, if_neg (ht ▸ (hd c).symm), hpos]
        exact Or.inr ⟨rfl, hd⟩
    have hr₁ : ¬CanRun hw s₁ s₁.currentTask := by
      rcases hsel.current with hc | hc
      · exact hc ▸ hnone₁ _
      · rcases hcase₁ with hi | ⟨ht, _⟩
        · exact hc ▸ hi
        · exact ht ▸ hnone₁ _
    rw [selectLoop_continue hturn]
    exact ih hsel (hskip.clock hclock) hnone₁ hcase₁ hr₁

/-- With no task to run in the queue, the loop can only stop at the idle task. -/
theorem selectLoop_idle {hw : Platform} (fuel : Nat) {s s' : Scheduler} {ns : List (Nat × Nat)}
    {c : Nat} (h : Selecting s ns c) (hclock : ClockHolds hw s)
    (hnone : ∀ i, ¬CanRun hw s (taskAt ns i)) (hs' : s.selectLoop hw fuel = .ok s') :
    s'.currentTask = s.idleTask := by
  induction fuel generalizing s c with
  | zero =>
    by_cases hr : CanRun hw s s.currentTask
    · obtain ⟨u, hu, _, hok | hstall⟩ := selectLoop_canRun hr
      · rw [hs'] at hok
        cases hok
        rw [hu]
        exact h.current.resolve_left fun hc => hnone c (hc ▸ hr)
      · rw [hs'] at hstall
        cases hstall
    · obtain ⟨s₁, hturn, _, _⟩ := h.next hr
      rw [selectLoop_stall hturn] at hs'
      cases hs'
  | succ fuel ih =>
    by_cases hr : CanRun hw s s.currentTask
    · obtain ⟨u, hu, hok, _⟩ := selectLoop_canRun hr
      rw [hok fuel] at hs'
      cases hs'
      rw [hu]
      exact h.current.resolve_left fun hc => hnone c (hc ▸ hr)
    · obtain ⟨s₁, hturn, hskip, hsel⟩ := h.next hr
      rw [selectLoop_continue hturn] at hs'
      rw [← hskip.idleTask]
      refine ih hsel (hskip.clock hclock) (fun i => ?_) hs'
      rw [hskip.canRun hclock]
      exact hnone i

end Scheduler

end UmbraOS
