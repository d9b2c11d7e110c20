import UmbraOS.KernelKill
import UmbraOS.SchedulerFairness

namespace UmbraOS

namespace Kernel

open Scheduler

variable {hw : Platform} {fuel : Nat}

/-- The exit of the task at the cursor hands the processor to the task behind it. -/
structure PassesTurn (hw : Platform) (k : Kernel) (ns : List (Nat × Nat)) (c : Nat)
    (regs : Registers) : Prop where
  returns : ∃ fuel k', k.killAndYield hw fuel regs = .ok k'
  successor : ∀ fuel k', k.killAndYield hw fuel regs = .ok k' →
    k'.sched.currentTask = taskAt ns (c + 1)

/-- After the removal and the step of `schedule` the cursor is two positions behind the task that
left, counted in the queue it was in. -/
theorem taskAt_erased {ns : List (Nat × Nat)} {c : Nat} (hc : c < ns.length)
    (hlen : 3 ≤ ns.length) :
    taskAt (ns.eraseIdx c) ((if c + 1 < ns.length then c else 0) + 1) = taskAt ns (c + 2) := by
  unfold taskAt
  rw [List.length_eraseIdx_of_lt hc, List.getElem?_eraseIdx]
  congr 1
  by_cases hlast : c + 1 < ns.length
  · rw [if_pos hlast]
    by_cases hwrap : c + 2 < ns.length
    · rw [Nat.mod_eq_of_lt (by omega), Nat.mod_eq_of_lt hwrap, if_neg (by omega)]
    · rw [show c + 1 = ns.length - 1 by omega, show c + 2 = ns.length by omega, Nat.mod_self,
        Nat.mod_self, if_pos (by omega)]
  · rw [if_neg hlast, Nat.mod_eq_of_lt (by omega), if_pos (by omega),
      show c + 2 = ns.length + 1 by omega, Nat.add_mod_left, Nat.mod_eq_of_lt (by omega)]

theorem taskAt_erased_two {ns : List (Nat × Nat)} {c : Nat} (hc : c < ns.length)
    (hlen : ns.length = 2) :
    taskAt (ns.eraseIdx c) ((if c + 1 < ns.length then c else 0) + 1) = taskAt ns (c + 1) := by
  unfold taskAt
  rw [List.length_eraseIdx_of_lt hc, List.getElem?_eraseIdx, hlen]
  congr 1
  have hcase : c = 0 ∨ c = 1 := by omega
  rcases hcase with rfl | rfl
  · rfl
  · rfl

/-- Which task an exit resumes, counted in the queue before it. -/
theorem exit_resumes {k : Kernel} {ns : List (Nat × Nat)} {c : Nat}
    (h : Coherent k.sched ns c) (hne : k.sched.currentTask ≠ k.sched.idleTask)
    (hrun : ∀ p ∈ ns, CanRun hw k.sched (some p.2)) (hlen : 2 ≤ ns.length) (regs : Registers) :
    (∃ fuel k', k.killAndYield hw fuel regs = .ok k') ∧
      ∀ fuel k', k.killAndYield hw fuel regs = .ok k' →
        k'.sched.currentTask =
          taskAt (ns.eraseIdx c) ((if c + 1 < ns.length then c else 0) + 1) := by
  obtain ⟨t, task, hc, ht⟩ := h.current_task
  obtain ⟨hbusy, -⟩ := h.looks.resolve_left hne
  obtain ⟨q, hq, hholds⟩ := TaskList.removeCurrent_holds h.queue hbusy
  have hcursor : c < ns.length := h.queue.cursor.resolve_left hbusy
  have hrest : 0 < (ns.eraseIdx c).length := by
    rw [List.length_eraseIdx_of_lt hcursor]
    omega
  have hmem : ∀ p ∈ ns.eraseIdx c, p ∈ ns := fun p hp => List.mem_of_mem_eraseIdx hp
  have hdist : ((ns.eraseIdx c).map Prod.snd).Nodup :=
    h.distinct.sublist ((List.eraseIdx_sublist ns c).map Prod.snd)
  obtain ⟨s, hs⟩ : ∃ s, s = { k.sched with queue := q, realTime := u64 (k.sched.realTime + 1) } :=
    ⟨_, rfl⟩
  have hstocked : Stocked s (ns.eraseIdx c) (if c + 1 < ns.length then c else 0) := by
    rw [hs]
    exact ⟨⟨hholds, fun p hp => h.queued p (hmem p hp), h.idle⟩,
      fun p hp => h.idleOut p (hmem p hp), h.context, h.space, h.apart⟩
  have hcur : ∃ t task, s.currentTask = some t ∧ s.tasks.cell t = some task := by
    rw [hs]
    exact ⟨t, task, hc, ht⟩
  have hnext : CanRun hw s
      (taskAt (ns.eraseIdx c) ((if c + 1 < ns.length then c else 0) + 1 + 0)) := by
    obtain ⟨u, utask, hu, -⟩ := hstocked.taskAt_live (List.ne_nil_of_length_pos hrest)
      ((if c + 1 < ns.length then c else 0) + 1 + 0)
    obtain ⟨p, hp, hpu⟩ := taskAt_mem hu
    rw [hu, ← hpu, hs]
    exact hrun p (hmem p hp)
  have hselects := schedule_selectsAt hstocked hcur hdist (fun h => absurd h (Nat.lt_irrefl 0))
    hrest (fun j hj => absurd hj (Nat.not_lt_zero j)) hnext regs
  have hkill : ∀ fuel, k.killAndYield hw fuel regs =
      (do let after ← k.resume (s.schedule hw fuel regs)
          return { after with sched := after.sched.deleted t task }) := by
    intro fuel
    unfold killAndYield
    rw [h.queue.isEmpty_eq, if_neg (by simpa using hbusy), hc, hs]
    simp only [CellStore.read_live ht, Except.ok_bind, hq]
    rfl
  refine ⟨?_, fun fuel k' hk => ?_⟩
  · obtain ⟨fuel, r, s', hs'⟩ := hselects.terminates
    refine ⟨fuel, { k with sched := s'.deleted t task, loaded := some r }, ?_⟩
    rw [hkill, hs']
    rfl
  · rw [hkill] at hk
    obtain ⟨after, hresume, hk⟩ := Except.bind_eq_ok.mp hk
    obtain ⟨context, hsched, -⟩ := resume_ok hresume
    cases hk
    exact (hselects.selected fuel context after.sched hsched).1

/-- In a queue of tasks that can all run, an exit hands the processor to the next task exactly when
there are two tasks; in a longer queue the next one is passed over. -/
theorem exit_passes_turn_iff {k : Kernel} {ns : List (Nat × Nat)} {c : Nat}
    (h : Coherent k.sched ns c) (hne : k.sched.currentTask ≠ k.sched.idleTask)
    (hrun : ∀ p ∈ ns, CanRun hw k.sched (some p.2)) (hlen : 2 ≤ ns.length) (regs : Registers) :
    PassesTurn hw k ns c regs ↔ ns.length = 2 := by
  obtain ⟨hreturns, hresumed⟩ := exit_resumes h hne hrun hlen regs
  obtain ⟨hbusy, -⟩ := h.looks.resolve_left hne
  have hcursor : c < ns.length := h.queue.cursor.resolve_left hbusy
  constructor
  · intro hpass
    by_contra hlong
    obtain ⟨fuel, k', hk⟩ := hreturns
    have hsame := (hresumed fuel k' hk).symm.trans (hpass.successor fuel k' hk)
    rw [taskAt_erased hcursor (by omega)] at hsame
    exact taskAt_succ_ne (by omega) h.distinct (c + 1) hsame
  · intro htwo
    refine ⟨hreturns, fun fuel k' hk => ?_⟩
    rw [hresumed fuel k' hk, taskAt_erased_two hcursor htwo]

/-- The tasks of a run that were added and have not exited can all run. -/
theorem started_canRun {k : Kernel} {ns : List (Nat × Nat)}
    (h : ∀ p ∈ ns, ∃ task, k.sched.tasks.cell p.2 = some task ∧
      (task.status = .ready ∨ task.status = .running)) :
    ∀ p ∈ ns, CanRun hw k.sched (some p.2) := by
  intro p hp
  obtain ⟨task, ht, hs⟩ := h p hp
  exact ⟨p.2, task, rfl, ht, hs.imp id Or.inl⟩

/-- Some tasks are added, and a timer tick starts the newest. -/
def startTasks (n : Nat) : List Event :=
  List.replicate n (.addTask plainTask) ++ [.timer zeroRegisters]

theorem startTasks_kills (n : Nat) (k : Kernel) :
    Along (step ⟨id, 1, 0⟩ 0) KillsQueued k (startTasks n) := by
  induction n generalizing k with
  | zero => exact fun _ _ => ⟨fun _ h => Event.noConfusion h, trivial⟩
  | succ n ih => exact fun _ _ => ⟨fun _ h => Event.noConfusion h, ih _⟩

/-- Of two tasks the newer one exits, and the other is resumed. -/
theorem exit_of_two_passes_turn : ∃ k ns c,
    run (step ⟨id, 1, 0⟩ 0) (init plainTask) (startTasks 2) = .ok k ∧
      ns = [(1, 2), (0, 1)] ∧
      (PassesTurn ⟨id, 1, 0⟩ k ns c zeroRegisters ↔ ns.length = 2) := by
  obtain ⟨k, hk, hreached, hne, hready⟩ : ∃ k,
      run (step ⟨id, 1, 0⟩ 0) (init plainTask) (startTasks 2) = .ok k ∧
      k.sched.queue.reached = .ok [(1, 2), (0, 1)] ∧
      k.sched.currentTask ≠ k.sched.idleTask ∧ ∀ p ∈ [(1, 2), (0, 1)],
        ∃ task, k.sched.tasks.cell p.2 = some task ∧
          (task.status = .ready ∨ task.status = .running) := by
    refine ⟨_, rfl, rfl, by decide, ?_⟩
    intro p hp
    simp only [List.mem_cons, List.not_mem_nil, or_false] at hp
    rcases hp with rfl | rfl
    · exact ⟨_, rfl, Or.inr rfl⟩
    · exact ⟨_, rfl, Or.inl rfl⟩
  obtain ⟨ns, c, hcoh⟩ := run_inOrder (startTasks_kills 2 _) hk
  obtain rfl := Except.ok.inj (hcoh.queue.reached.symm.trans hreached)
  exact ⟨k, _, c, hk, rfl,
    exit_passes_turn_iff hcoh hne (started_canRun hready) (Nat.le_refl 2) zeroRegisters⟩

/-- Of three tasks the newest exits; the second one misses its turn and the oldest is resumed. -/
theorem exit_skips_next : ∃ k ns c,
    run (step ⟨id, 1, 0⟩ 0) (init plainTask) (startTasks 3) = .ok k ∧
      Coherent k.sched ns c ∧ ns = [(2, 3), (1, 2), (0, 1)] ∧
      k.sched.currentTask = some 3 ∧ k.sched.currentTask ≠ k.sched.idleTask ∧
      (∀ p ∈ ns, CanRun ⟨id, 1, 0⟩ k.sched (some p.2)) ∧
      ¬PassesTurn ⟨id, 1, 0⟩ k ns c zeroRegisters := by
  obtain ⟨k, k', hk, hreached, hcurrent, hcursor, hne, hready, hkill, hresumed⟩ : ∃ k k',
      run (step ⟨id, 1, 0⟩ 0) (init plainTask) (startTasks 3) = .ok k ∧
      k.sched.queue.reached = .ok [(2, 3), (1, 2), (0, 1)] ∧
      k.sched.currentTask = some 3 ∧ k.sched.queue.current = some 2 ∧
      k.sched.currentTask ≠ k.sched.idleTask ∧ (∀ p ∈ [(2, 3), (1, 2), (0, 1)],
        ∃ task, k.sched.tasks.cell p.2 = some task ∧
          (task.status = .ready ∨ task.status = .running)) ∧
      k.killAndYield ⟨id, 1, 0⟩ 0 zeroRegisters = .ok k' ∧ k'.sched.currentTask = some 1 := by
    refine ⟨_, _, rfl, rfl, rfl, rfl, by decide, ?_, rfl, rfl⟩
    intro p hp
    simp only [List.mem_cons, List.not_mem_nil, or_false] at hp
    rcases hp with rfl | rfl | rfl
    · exact ⟨_, rfl, Or.inr rfl⟩
    · exact ⟨_, rfl, Or.inl rfl⟩
    · exact ⟨_, rfl, Or.inl rfl⟩
  obtain ⟨ns, c, hcoh⟩ := run_inOrder (startTasks_kills 3 _) hk
  obtain rfl := Except.ok.inj (hcoh.queue.reached.symm.trans hreached)
  have hzero : c = 0 :=
    TaskList.addr_inj hcoh.queue.nodup (hcoh.queue.current.symm.trans hcursor) rfl
  refine ⟨k, _, c, hk, hcoh, rfl, hcurrent, hne, started_canRun hready, fun hpass => ?_⟩
  have hnext := hpass.successor 0 k' hkill
  rw [hresumed, hzero] at hnext
  cases hnext

end Kernel

end UmbraOS
