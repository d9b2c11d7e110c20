import UmbraOS.KernelKill
import UmbraOS.KernelSleep

namespace UmbraOS

namespace Kernel

open Scheduler

variable {hw : Platform} {fuel : Nat}

/-- The tasks in the loop of `sys_futex_wait` whose pointer another task has woken since they
began to wait. -/
abbrev Targets := Nat → Bool

def targets (k k' : Kernel) (woken : Targets) : Event → Targets
  | .futexWake pointer => fun t => (woken t ||
      decide (k.sched.currentTask ≠ some t ∧ k.waiting t = some pointer)) && (k'.waiting t).isSome
  | .futexWait _ value expected _ => fun t =>
      (woken t && !decide (value = expected ∧ k.sched.currentTask = some t)) && (k'.waiting t).isSome
  | _ => fun t => woken t && (k'.waiting t).isSome

def targetStep (hw : Platform) (fuel : Nat) (p : Kernel × Targets) (e : Event) :
    Except Trap (Kernel × Targets) := do
  let k ← p.1.step hw fuel e
  return (k, targets p.1 k p.2 e)

theorem targetStep_ok {p p' : Kernel × Targets} {e : Event}
    (h : targetStep hw fuel p e = .ok p') : p.1.step hw fuel e = .ok p'.1 := by
  obtain ⟨k, hk, h⟩ := Except.bind_eq_ok.mp h
  cases h
  exact hk

/-- `sys_futex_wait` of `task` leaves its loop, takes the pointer out of the futexes of the task,
and the task out of the list of waiters if it holds no other futex, and returns 0. -/
structure Leaves (hw : Platform) (fuel : Nat) (k k' : Kernel) (task pointer : Nat)
    (regs : Registers) : Prop where
  returns : k.futexTurn hw fuel task pointer regs = .ok (some .zero, k')
  left : k'.waiting task = none
  futexes : (k.futexes task).remove pointer = .ok (k'.futexes task)
  handles : (k'.futexes task).isEmpty = true → k.futexHandles.remove task = .ok k'.futexHandles

/-- A task in the loop that was woken leaves it when it goes on there; every other task in the
loop stays. -/
def Obeys (hw : Platform) (fuel : Nat) (p : Kernel × Targets) (e : Event) (p' : Kernel × Targets) :
    Prop :=
  ∀ t pointer, p.1.waiting t = some pointer →
    (∃ regs, e = .futexTurn t pointer regs ∧ p.2 t = true ∧ Leaves hw fuel p.1 p'.1 t pointer regs) ∨
    (∀ regs, e = .futexTurn t pointer regs → p.2 t = false) ∧ p'.1.waiting t = some pointer

/-- No task that was woken goes on in the loop. -/
def GoesOnUnwoken (p : Kernel × Targets) (e : Event) (_ : Kernel × Targets) : Prop :=
  ∀ t pointer regs, e = .futexTurn t pointer regs → p.2 t = false

theorem Effect.next_le {k k' : Kernel} {ns : List (Nat × Nat)} {c : Nat} {e : Event}
    (he : Effect hw k ns c e k') : k.sched.tasks.next ≤ k'.sched.tasks.next := by
  cases he with
  | addTask new a c' _ hsched =>
    rw [hsched]
    exact Nat.le_succ _
  | wake which _ hwoken => exact Nat.le_of_eq hwoken.next.symm
  | switch regs context s henters _ hswitch =>
    rw [hswitch.next]
    cases henters <;> exact le_refl _
  | wait t pointer value regs context _ _ hswitch =>
    rw [hswitch.next]
    exact le_refl _
  | again => exact le_refl _
  | kill t task q s regs context _ _ _ hswitch _ hframe =>
    rw [hframe]
    exact Nat.le_of_eq hswitch.next.symm
  | tcbSet => exact le_refl _

/-- The tasks in the loop of `sys_futex_wait` exist or have existed. -/
structure Waits (k : Kernel) : Prop where
  inOrder : k.InOrder
  made : ∀ t pointer, k.waiting t = some pointer → t < k.sched.tasks.next

theorem init_waits (idle : NewTask) : Waits (init idle) :=
  ⟨init_inOrder idle, fun _ _ h => by cases h⟩

/-- No event takes a task out of the loop. -/
theorem Waits.stays {k k' : Kernel} {ns : List (Nat × Nat)} {c : Nat} {e : Event} (h : Waits k)
    (hown : k.Own e) (he : Effect hw k ns c e k') {t pointer : Nat}
    (ht : k.waiting t = some pointer) : k'.waiting t = some pointer := by
  cases he with
  | addTask new a c' _ _ hframe =>
    have hlt := h.made t pointer ht
    rw [hframe]
    exact (Function.update_of_ne (by omega) _ _).trans ht
  | wake which _ _ hframe =>
    rw [hframe]
    exact ht
  | switch regs context s _ _ _ hframe =>
    rw [hframe]
    exact ht
  | wait u p value regs context hu _ _ list hframe =>
    have hne : t ≠ u := by
      rintro rfl
      have hnone : k.waiting t = none := hown t hu
      rw [ht] at hnone
      cases hnone
    rw [hframe]
    exact (Function.update_of_ne hne _ _).trans ht
  | again => exact ht
  | kill u task q s regs context _ _ _ _ _ hframe =>
    rw [hframe]
    exact ht
  | tcbSet => exact ht

theorem Waits.step {k k' : Kernel} {ns : List (Nat × Nat)} {c : Nat} {e : Event} (h : Waits k)
    (hcoh : Coherent k.sched ns c) (he : Effect hw k ns c e k') : Waits k' := by
  refine ⟨he.coherent hcoh, fun t pointer ht => ?_⟩
  have hle := he.next_le
  have hold : k.waiting t = some pointer → t < k'.sched.tasks.next := by
    intro hk
    have := h.made t pointer hk
    omega
  cases he with
  | addTask new a c' _ _ hframe =>
    rw [hframe] at ht
    by_cases hnew : t = k.sched.tasks.next
    · subst hnew
      have hnone : Function.update k.waiting k.sched.tasks.next none k.sched.tasks.next =
          some pointer := ht
      rw [Function.update_self] at hnone
      cases hnone
    · exact hold ((Function.update_of_ne hnew _ _).symm.trans ht)
  | wake which _ _ hframe =>
    rw [hframe] at ht
    exact hold ht
  | switch regs context s _ _ _ hframe =>
    rw [hframe] at ht
    exact hold ht
  | wait u p value regs context hu _ _ list hframe =>
    rw [hframe] at ht
    by_cases htu : t = u
    · subst htu
      obtain ⟨v, task, hv, htask⟩ := hcoh.current_task
      rw [hu] at hv
      obtain rfl := Option.some.inj hv
      have hlt := CellStore.lt_next htask
      omega
    · exact hold ((Function.update_of_ne htu _ _).symm.trans ht)
  | again => exact hold ht
  | kill u task q s regs context _ _ _ _ _ hframe =>
    rw [hframe] at ht
    exact hold ht
  | tcbSet => exact hold ht

/-- The tasks make their calls one after another, and the idle task makes none that exits. -/
def InTurn (p : Kernel × Targets) (e : Event) (p' : Kernel × Targets) : Prop :=
  p.1.Own e ∧ KillsQueued p.1 e p'.1

theorem InTurn.of_ne_kill {p p' : Kernel × Targets} {e : Event} (hown : p.1.Own e)
    (he : ∀ regs, e ≠ .kill regs) : InTurn p e p' :=
  ⟨hown, fun regs hregs => absurd hregs (he regs)⟩

theorem step_obeys_iff {p p' : Kernel × Targets} {e : Event} (h : Waits p.1)
    (hturn : InTurn p e p') (hs : targetStep hw fuel p e = .ok p') :
    Waits p'.1 ∧ (Obeys hw fuel p e p' ↔ GoesOnUnwoken p e p') := by
  obtain ⟨ns, c, hcoh⟩ := h.inOrder
  have heffect := step_effect hcoh hturn.2 (targetStep_ok hs)
  have hstays : ∀ t pointer, p.1.waiting t = some pointer → p'.1.waiting t = some pointer :=
    fun t pointer ht => h.stays hturn.1 heffect ht
  refine ⟨h.step hcoh heffect, ?_, ?_⟩
  · rintro hobeys t pointer regs rfl
    have hown : p.1.Own (.futexTurn t pointer regs) := hturn.1
    rcases hobeys t pointer hown.2 with ⟨_, _, _, hleaves⟩ | ⟨hnot, _⟩
    · have hleft := hleaves.left
      rw [hstays t pointer hown.2] at hleft
      cases hleft
    · exact hnot regs rfl
  · intro hgoes t pointer ht
    exact Or.inr ⟨fun regs he => hgoes t pointer regs he, hstays t pointer ht⟩

/-- In every run, futex waits and wakes do what they are for exactly when no task that was woken
is resumed: resumed in the loop, it would wait once more. -/
theorem futex_obeys_iff {idle : NewTask} {es : List Event}
    (hturn : Along (targetStep hw fuel) InTurn (init idle, fun _ => false) es) :
    Along (targetStep hw fuel) (Obeys hw fuel) (init idle, fun _ => false) es ↔
      Along (targetStep hw fuel) GoesOnUnwoken (init idle, fun _ => false) es := by
  have hkeep : ∀ p e p', Waits p.1 → InTurn p e p' → targetStep hw fuel p e = .ok p' →
      Waits p'.1 ∧ (Obeys hw fuel p e p' ↔ GoesOnUnwoken p e p') :=
    fun p e p' h hturn hs => step_obeys_iff h hturn hs
  exact Along.congr hkeep (init_waits idle) hturn

/-- A task waits for a futex, another one wakes it, and the first one is resumed. -/
def wakeOfWaiter : List Event :=
  [.addTask plainTask, .addTask plainTask, .timer zeroRegisters,
    .futexWait 64 0 0 zeroRegisters, .futexWake 64, .timer zeroRegisters,
    .futexTurn 2 64 zeroRegisters]

theorem wakeOfWaiter_inTurn : Along (targetStep ⟨id, 1, 0⟩ 0) InTurn
    (init plainTask, fun _ => false) wakeOfWaiter := by
  intro p₁ h₁
  cases h₁
  refine ⟨.of_ne_kill trivial nofun, fun p₂ h₂ => ?_⟩
  cases h₂
  refine ⟨.of_ne_kill trivial nofun, fun p₃ h₃ => ?_⟩
  cases h₃
  refine ⟨.of_ne_kill trivial nofun, fun p₄ h₄ => ?_⟩
  cases h₄
  refine ⟨.of_ne_kill (fun t ht => ?_) nofun, fun p₅ h₅ => ?_⟩
  · cases ht
    rfl
  cases h₅
  refine ⟨.of_ne_kill (fun t ht => ?_) nofun, fun p₆ h₆ => ?_⟩
  · cases ht
    rfl
  cases h₆
  refine ⟨.of_ne_kill trivial nofun, fun p₇ h₇ => ?_⟩
  exact ⟨.of_ne_kill ⟨rfl, rfl⟩ nofun, trivial⟩

/-- A task waits for a futex, another futex is woken, a packet comes, and the waiting task is resumed
unwoken. -/
def wakeOfOther : List Event :=
  [.addTask plainTask, .addTask plainTask, .timer zeroRegisters,
    .futexWait 64 0 0 zeroRegisters, .futexWake 72, .wakeNet, .timer zeroRegisters,
    .futexTurn 2 64 zeroRegisters]

theorem wakeOfOther_obeys :
    Along (targetStep ⟨id, 1, 0⟩ 1) (Obeys ⟨id, 1, 0⟩ 1) (init plainTask, fun _ => false)
      wakeOfOther := by
  have hboth : Along (targetStep ⟨id, 1, 0⟩ 1) (fun p e p' => InTurn p e p' ∧ GoesOnUnwoken p e p')
      (init plainTask, fun _ => false) wakeOfOther := by
    intro p₁ h₁
    cases h₁
    refine ⟨⟨.of_ne_kill trivial nofun, nofun⟩, fun p₂ h₂ => ?_⟩
    cases h₂
    refine ⟨⟨.of_ne_kill trivial nofun, nofun⟩, fun p₃ h₃ => ?_⟩
    cases h₃
    refine ⟨⟨.of_ne_kill trivial nofun, nofun⟩, fun p₄ h₄ => ?_⟩
    cases h₄
    refine ⟨⟨.of_ne_kill (fun t ht => ?_) nofun, nofun⟩, fun p₅ h₅ => ?_⟩
    · cases ht
      rfl
    cases h₅
    refine ⟨⟨.of_ne_kill (fun t ht => ?_) nofun, nofun⟩, fun p₆ h₆ => ?_⟩
    · cases ht
      rfl
    cases h₆
    refine ⟨⟨.of_ne_kill trivial nofun, nofun⟩, fun p₇ h₇ => ?_⟩
    cases h₇
    refine ⟨⟨.of_ne_kill trivial nofun, nofun⟩, fun p₈ h₈ => ?_⟩
    cases h₈
    refine ⟨⟨.of_ne_kill ⟨rfl, rfl⟩ nofun, fun t pointer regs he => ?_⟩, trivial⟩
    cases he
    rfl
  exact (futex_obeys_iff (Along.mono (fun _ _ _ h => h.1) hboth)).mpr
    (Along.mono (fun _ _ _ h => h.2) hboth)

/-- The woken task is resumed and waits once more. -/
theorem woken_task_waits :
    Along (targetStep ⟨id, 1, 0⟩ 0) InTurn (init plainTask, fun _ => false) wakeOfWaiter ∧
      ¬Along (targetStep ⟨id, 1, 0⟩ 0) (Obeys ⟨id, 1, 0⟩ 0) (init plainTask, fun _ => false)
        wakeOfWaiter := by
  refine ⟨wakeOfWaiter_inTurn, fun h => ?_⟩
  obtain ⟨_, h⟩ := h _ rfl
  obtain ⟨_, h⟩ := h _ rfl
  obtain ⟨_, h⟩ := h _ rfl
  obtain ⟨_, h⟩ := h _ rfl
  obtain ⟨_, h⟩ := h _ rfl
  obtain ⟨_, h⟩ := h _ rfl
  obtain ⟨h, _⟩ := h _ rfl
  rcases h 2 64 rfl with ⟨_, _, _, hleaves⟩ | ⟨hnot, _⟩
  · cases hleaves.left
  · cases hnot zeroRegisters rfl

end Kernel

end UmbraOS
