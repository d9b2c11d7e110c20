import UmbraOS.KernelFutex

namespace UmbraOS

namespace Kernel

open Scheduler

variable {hw : Platform} {fuel : Nat}

/-- The pointers that the tasks last set by `sys_tcb_set`. -/
abbrev Pointers := Nat → Option (BitVec 64)

def pointers (k : Kernel) (set : Pointers) : Event → Pointers
  | .tcbSet pointer => fun t => if k.sched.currentTask = some t then some pointer else set t
  | _ => set

def tcbStep (hw : Platform) (fuel : Nat) (p : Kernel × Pointers) (e : Event) :
    Except Trap (Kernel × Pointers) := do
  let k ← p.1.step hw fuel e
  return (k, pointers p.1 p.2 e)

theorem tcbStep_ok {p p' : Kernel × Pointers} {e : Event} (h : tcbStep hw fuel p e = .ok p') :
    p.1.step hw fuel e = .ok p'.1 ∧ p'.2 = pointers p.1 p.2 e := by
  obtain ⟨k, hk, h⟩ := Except.bind_eq_ok.mp h
  cases h
  exact ⟨hk, rfl⟩

/-- A task sets the pointer that every other task has set which exists and has set one. -/
def SetsShared (p : Kernel × Pointers) (e : Event) (_ : Kernel × Pointers) : Prop :=
  ∀ pointer, e = .tcbSet pointer → ∀ t v, p.1.sched.currentTask ≠ some t →
    (∃ task, p.1.sched.tasks.cell t = some task) → p.2 t = some v → v = pointer

/-- The task that runs was interrupted in user mode when it was resumed. -/
def RunsUser (k : Kernel) : Prop := ∃ r, k.loaded = some r ∧ r.iretCs &&& 3 = 3

/-- The thread pointer of the CPU is the one that each task has set which exists and has set one. -/
structure Shares (k : Kernel) (set : Pointers) : Prop where
  inOrder : k.InOrder
  made : ∀ t v, set t = some v → t < k.sched.tasks.next
  same : ∀ t v, (∃ task, k.sched.tasks.cell t = some task) → set t = some v → k.tcb = v

theorem init_shares (idle : NewTask) : Shares (init idle) fun _ => none := by
  refine ⟨init_inOrder idle, ?_, ?_⟩
  · intro t v h
    cases h
  · intro t v _ h
    cases h

/-- Tasks appear only as new ones. -/
theorem Effect.lived {k k' : Kernel} {ns : List (Nat × Nat)} {c : Nat} {e : Event}
    (he : Effect hw k ns c e k') {t : Nat} (ht : ∃ task, k'.sched.tasks.cell t = some task)
    (hlt : t < k.sched.tasks.next) : ∃ task, k.sched.tasks.cell t = some task := by
  obtain ⟨task, ht⟩ := ht
  have hswitched : ∀ {regs context : Registers} {s s' : Scheduler} {ns : List (Nat × Nat)},
      Switched hw regs context s s' ns → s'.tasks.cell t = some task →
      ∃ old, s.tasks.cell t = some old := by
    intro regs context s s' ns hs ht
    have hroused := hs.task t
    rw [ht] at hroused
    obtain ⟨old, ho, _⟩ := hroused.parts
    exact ⟨old, ho⟩
  have hadjust : ∀ {u : Nat} {f : Task → Task}, (∃ old, (k.sched.tasks.adjust u f).cell t = some old) →
      ∃ old, k.sched.tasks.cell t = some old := by
    intro u f h
    obtain ⟨old, ho⟩ := h
    rcases CellStore.adjust_cell_cases ho with ⟨-, ho⟩ | ⟨rfl, old', ho', -⟩
    · exact ⟨old, ho⟩
    · exact ⟨old', ho'⟩
  cases he with
  | addTask new a c' _ hsched =>
    rw [hsched] at ht
    have hcell : (k.sched.tasks.alloc ⟨.ready, k.sched.spaces.next, k.sched.contexts.next,
        new.tscSleep⟩).cell t = some task := ht
    rw [CellStore.alloc_cell, if_neg (by omega)] at hcell
    exact ⟨task, hcell⟩
  | wake which _ hwoken =>
    obtain ⟨old, ho, _⟩ := hwoken.parts ht
    exact ⟨old, ho⟩
  | switch regs context s henters _ hswitch =>
    have hold := hswitched hswitch ht
    cases henters with
    | timer => exact hold
    | yield => exact hold
    | sleep ms _ _ => exact hadjust hold
    | awaitIo _ _ => exact hadjust hold
    | futexTurn _ _ _ _ => exact hadjust hold
  | wait u pointer value regs context _ _ hswitch => exact hadjust (hswitched hswitch ht)
  | again => exact ⟨task, ht⟩
  | kill u task' q s regs context _ _ _ hswitch _ hframe =>
    rw [hframe] at ht
    obtain ⟨_, hcell⟩ := CellStore.erase_cell_live ht
    have hold := hswitched hswitch hcell
    exact hold
  | tcbSet => exact ⟨task, ht⟩

/-- Only `sys_tcb_set` writes the thread pointer. -/
theorem Effect.tcb {k k' : Kernel} {ns : List (Nat × Nat)} {c : Nat} {e : Event}
    (he : Effect hw k ns c e k') : (∃ pointer, e = .tcbSet pointer ∧ k' = k.sysTcbSet pointer) ∨
      (∀ pointer, e ≠ .tcbSet pointer) ∧ k'.tcb = k.tcb := by
  cases he with
  | addTask new a c' _ _ hframe =>
    refine Or.inr ⟨fun _ he => Event.noConfusion he, ?_⟩
    rw [hframe]
  | wake which hwakes _ hframe =>
    refine Or.inr ⟨?_, ?_⟩
    · rintro pointer rfl
      cases hwakes
    · rw [hframe]
  | switch regs context s henters _ _ hframe =>
    refine Or.inr ⟨?_, ?_⟩
    · rintro pointer rfl
      cases henters
    · rw [hframe]
  | wait t pointer value regs context _ _ _ list hframe =>
    refine Or.inr ⟨fun _ he => Event.noConfusion he, ?_⟩
    rw [hframe]
  | again => exact Or.inr ⟨fun _ he => Event.noConfusion he, rfl⟩
  | kill t task q s regs context _ _ _ _ _ hframe =>
    refine Or.inr ⟨fun _ he => Event.noConfusion he, ?_⟩
    rw [hframe]
  | tcbSet pointer => exact Or.inl ⟨pointer, rfl, rfl⟩

theorem Shares.step {k k' : Kernel} {set : Pointers} {e : Event} (h : Shares k set)
    (hkill : KillsQueued k e k') (hshared : SetsShared (k, set) e (k', pointers k set e))
    (hs : k.step hw fuel e = .ok k') : Shares k' (pointers k set e) := by
  obtain ⟨ns, c, hcoh⟩ := h.inOrder
  have heffect := step_effect hcoh hkill hs
  have hle := heffect.next_le
  rcases heffect.tcb with ⟨pointer, rfl, rfl⟩ | ⟨hne, htcb⟩
  · refine ⟨h.inOrder, fun t v hv => ?_, fun t v hlive hv => ?_⟩
    · by_cases hc : k.sched.currentTask = some t
      · obtain ⟨u, task, hu, ht⟩ := hcoh.current_task
        rw [hc] at hu
        obtain rfl := Option.some.inj hu
        exact CellStore.lt_next ht
      · simp only [pointers, if_neg hc] at hv
        exact h.made t v hv
    · by_cases hc : k.sched.currentTask = some t
      · simp only [pointers, if_pos hc] at hv
        exact Option.some.inj hv
      · simp only [pointers, if_neg hc] at hv
        exact (hshared pointer rfl t v hc hlive hv).symm
  · have hset : pointers k set e = set := by
      cases e with
      | tcbSet pointer => exact absurd rfl (hne pointer)
      | _ => rfl
    rw [hset]
    refine ⟨heffect.coherent hcoh, fun t v hv => ?_, fun t v hlive hv => ?_⟩
    · have := h.made t v hv
      omega
    · rw [htcb]
      exact h.same t v (heffect.lived hlive (h.made t v hv)) hv

/-- In every run in which each `sys_tcb_set` gives the pointer that the other tasks have set, the
thread pointer of the CPU is the one that the running task last set. -/
theorem tcb_of_current {idle : NewTask} {es : List Event} {k : Kernel} {set : Pointers}
    (hkill : Along (tcbStep hw fuel) (fun p e p' => KillsQueued p.1 e p'.1)
      (init idle, fun _ => none) es)
    (hshared : Along (tcbStep hw fuel) SetsShared (init idle, fun _ => none) es)
    (hrun : run (tcbStep hw fuel) (init idle, fun _ => none) es = .ok (k, set))
    {t : Nat} {v : BitVec 64} (hc : k.sched.currentTask = some t) (hv : set t = some v) :
    k.tcb = v := by
  have hkeep : ∀ p e p', Shares p.1 p.2 → (KillsQueued p.1 e p'.1 ∧ SetsShared p e p') →
      tcbStep hw fuel p e = .ok p' → Shares p'.1 p'.2 := by
    rintro ⟨k, set⟩ e ⟨k', set'⟩ hp ⟨hkill, hset⟩ hs
    obtain ⟨hstep, rfl⟩ := tcbStep_ok hs
    exact hp.step hkill hset hstep
  have hshares : Shares k set := (hkill.and hshared).invariant hkeep (init_shares idle) hrun
  obtain ⟨ns, c, hcoh⟩ := hshares.inOrder
  obtain ⟨u, task, hu, ht⟩ := hcoh.current_task
  rw [hc] at hu
  obtain rfl := Option.some.inj hu
  exact hshares.same t v ⟨task, ht⟩ hv

/-- A task that starts in user mode. -/
def userTask : NewTask := { plainTask with context := { zeroRegisters with iretCs := 0x1b } }

def userRegisters : Registers := userTask.context

/-- Two user tasks set a pointer each, in turn. -/
def twoPointers (first second : BitVec 64) : List Event :=
  [.addTask userTask, .addTask userTask, .timer zeroRegisters, .tcbSet first,
    .timer userRegisters, .tcbSet second, .timer userRegisters]

theorem one_pointer_shared : ∃ k set, run (tcbStep ⟨id, 1, 0⟩ 0) (init plainTask, fun _ => none)
      (twoPointers 4096 4096) = .ok (k, set) ∧
    k.sched.currentTask = some 2 ∧ set 2 = some 4096 ∧ k.tcb = 4096 := by
  have hkill : Along (tcbStep ⟨id, 1, 0⟩ 0) (fun p e p' => KillsQueued p.1 e p'.1)
      (init plainTask, fun _ => none) (twoPointers 4096 4096) := by
    apply Along.of_forall
    rintro e he p p' regs rfl
    simp [twoPointers] at he
  have hshared : Along (tcbStep ⟨id, 1, 0⟩ 0) SetsShared (init plainTask, fun _ => none)
      (twoPointers 4096 4096) := by
    intro p₁ h₁
    cases h₁
    refine ⟨fun _ he => Event.noConfusion he, fun p₂ h₂ => ?_⟩
    cases h₂
    refine ⟨fun _ he => Event.noConfusion he, fun p₃ h₃ => ?_⟩
    cases h₃
    refine ⟨fun _ he => Event.noConfusion he, fun p₄ h₄ => ?_⟩
    cases h₄
    refine ⟨fun pointer _ t v _ _ hset => ?_, fun p₅ h₅ => ?_⟩
    · cases hset
    cases h₅
    refine ⟨fun _ he => Event.noConfusion he, fun p₆ h₆ => ?_⟩
    cases h₆
    refine ⟨fun pointer he t v _ _ hset => ?_, fun p₇ h₇ => ⟨fun _ he => Event.noConfusion he, trivial⟩⟩
    obtain rfl := Event.tcbSet.inj he
    have hone : (if some 2 = some t then some 4096 else none) = some v := hset
    split at hone
    next => exact (Option.some.inj hone).symm
    next => cases hone
  obtain ⟨k, set, hrun, hc, hv⟩ : ∃ k set, run (tcbStep ⟨id, 1, 0⟩ 0)
      (init plainTask, fun _ => none) (twoPointers 4096 4096) = .ok (k, set) ∧
      k.sched.currentTask = some 2 ∧ set 2 = some 4096 := ⟨_, _, rfl, rfl, rfl⟩
  exact ⟨k, set, hrun, hc, hv, tcb_of_current hkill hshared hrun hc hv⟩

/-- The first task is back in user mode and finds the pointer of the second one. -/
theorem other_pointer_found : ∃ k set, run (tcbStep ⟨id, 1, 0⟩ 0)
      (init plainTask, fun _ => none) (twoPointers 4096 8192) = .ok (k, set) ∧ RunsUser k ∧
    k.sched.currentTask = some 2 ∧ set 2 = some 4096 ∧ k.tcb ≠ 4096 := by
  refine ⟨_, _, rfl, ⟨_, rfl, ?_⟩, rfl, rfl, ?_⟩
  · decide
  · decide

end Kernel

end UmbraOS
