import UmbraOS.Kernel
import UmbraOS.SchedulerCoherent

namespace UmbraOS

namespace DoublyLinkedList

variable {α : Type} [DecidableEq α]

theorem get_empty {l : DoublyLinkedList α} (h : l.head = none) (value : α) :
    l.get value = .ok none := by
  unfold get
  rw [h]
  cases l.nodes.next <;> rfl

end DoublyLinkedList

namespace Scheduler

/-- Some of the tasks of `which` are made running, and nothing else happens. -/
structure Woken (s s' : Scheduler) (which : Nat → Prop) : Prop where
  frame : s' = { s with tasks := s'.tasks }
  next : s'.tasks.next = s.tasks.next
  task : ∀ t, s'.tasks.cell t = s.tasks.cell t ∨ which t ∧ ∃ task, s.tasks.cell t = some task ∧
    s'.tasks.cell t = some { task with status := .running }

theorem Woken.refl (s : Scheduler) (which : Nat → Prop) : Woken s s which :=
  ⟨rfl, rfl, fun _ => Or.inl rfl⟩

theorem Woken.trans {s s' s'' : Scheduler} {which : Nat → Prop} (h : Woken s s' which)
    (h' : Woken s' s'' which) : Woken s s'' which := by
  refine ⟨?_, h'.next.trans h.next, fun t => ?_⟩
  · rw [h'.frame, h.frame]
  · rcases h'.task t with he' | ⟨hw', task', ht', he'⟩
    · rw [he']
      exact h.task t
    · rcases h.task t with he | ⟨_, task, ht, he⟩
      · rw [he] at ht'
        exact Or.inr ⟨hw', task', ht', he'⟩
      · rw [he] at ht'
        obtain rfl := Option.some.inj ht'
        exact Or.inr ⟨hw', task, ht, he'⟩

theorem Woken.mono {s s' : Scheduler} {which which' : Nat → Prop} (h : Woken s s' which)
    (hw : ∀ t, which t → which' t) : Woken s s' which' := by
  refine ⟨h.frame, h.next, fun t => ?_⟩
  rcases h.task t with he | ⟨hwt, task, ht, he⟩
  · exact Or.inl he
  · exact Or.inr ⟨hw t hwt, task, ht, he⟩

theorem Woken.one {s : Scheduler} {t : Nat} {task : Task} (ht : s.tasks.cell t = some task)
    {which : Nat → Prop} (hw : which t) :
    Woken s { s with tasks := s.tasks.adjust t fun t => { t with status := .running } } which := by
  refine ⟨rfl, rfl, fun u => ?_⟩
  by_cases hu : u = t
  · subst hu
    exact Or.inr ⟨hw, task, ht, CellStore.adjust_cell_self _ ht⟩
  · exact Or.inl (CellStore.adjust_cell_ne _ _ hu)

theorem Woken.parts {s s' : Scheduler} {which : Nat → Prop} (h : Woken s s' which) {t : Nat}
    {b : Task} (hb : s'.tasks.cell t = some b) : ∃ a, s.tasks.cell t = some a ∧
      b.context = a.context ∧ b.addressSpace = a.addressSpace ∧
      (b.status = a.status ∨ b.status = .running) := by
  rcases h.task t with he | ⟨_, a, ha, he⟩
  · rw [hb] at he
    exact ⟨b, he.symm, rfl, rfl, Or.inl rfl⟩
  · rw [hb] at he
    obtain rfl := Option.some.inj he
    exact ⟨a, ha, rfl, rfl, Or.inr rfl⟩

theorem Woken.coherent {s s' : Scheduler} {which : Nat → Prop} (h : Woken s s' which)
    {ns : List (Nat × Nat)} {c : Nat} (hs : Coherent s ns c) : Coherent s' ns c := by
  have hlive : ∀ t task, s.tasks.cell t = some task → ∃ new, s'.tasks.cell t = some new := by
    intro t task ht
    rcases h.task t with he | ⟨_, a, _, he⟩
    · exact ⟨task, he.trans ht⟩
    · exact ⟨_, he⟩
  rw [h.frame]
  refine ⟨⟨⟨hs.queue, fun p hp => ?_, ?_⟩, hs.idleOut, ?_, ?_, ?_⟩, hs.distinct, hs.looks, ?_⟩
  · obtain ⟨task, ht⟩ := hs.queued p hp
    exact hlive _ task ht
  · obtain ⟨t, task, hi, ht⟩ := hs.idle
    obtain ⟨new, hn⟩ := hlive t task ht
    exact ⟨t, new, hi, hn⟩
  · intro t task ht
    obtain ⟨old, ho, he, _⟩ := h.parts ht
    rw [he]
    exact hs.context t old ho
  · intro t task ht
    obtain ⟨old, ho, _, he, _⟩ := h.parts ht
    rw [he]
    exact hs.space t old ho
  · intro t u a b ht hu hne
    obtain ⟨a', ha, ha₁, ha₂, _⟩ := h.parts ht
    obtain ⟨b', hb, hb₁, hb₂, _⟩ := h.parts hu
    rw [ha₁, ha₂, hb₁, hb₂]
    exact hs.apart t u a' b' ha hb hne
  · intro t task hc hne ht hready
    obtain ⟨old, ho, _, _, he⟩ := h.parts ht
    rw [hready] at he
    rcases he with he | he
    · exact hs.started t old hc hne ho he.symm
    · cases he

end Scheduler

namespace Kernel

open Scheduler

variable {hw : Platform} {fuel : Nat}

theorem wakeLoop_woken {touch : Nat → Kernel → Kernel}
    (htouch : ∀ t k, ∃ events, touch t k = { k with events }) {turns : Nat} {k k' : Kernel}
    {node : Option Nat} (h : wakeLoop touch turns k node = .ok k') :
    (∃ events, k' = { k with events, sched := k'.sched }) ∧ Woken k.sched k'.sched
      fun t => ∃ task, k.sched.tasks.cell t = some task ∧ task.status = .waitingIo := by
  induction turns generalizing k node with
  | zero =>
    cases node with
    | none =>
      cases h
      exact ⟨⟨_, rfl⟩, Woken.refl _ _⟩
    | some node => cases h
  | succ turns ih =>
    cases node with
    | none =>
      cases h
      exact ⟨⟨_, rfl⟩, Woken.refl _ _⟩
    | some node =>
      obtain ⟨current, _, h⟩ := Except.bind_eq_ok.mp h
      obtain ⟨task, htask, h⟩ := Except.bind_eq_ok.mp h
      have ht := CellStore.read_some_ok.mp htask
      obtain ⟨events, he⟩ := htouch current.task k
      simp only [he] at h
      split at h
      next hwait =>
        rw [CellStore.modify_live _ ht, Except.ok_bind] at h
        obtain ⟨⟨events', hk⟩, hwoken⟩ := ih h
        have hfirst : Woken k.sched _ fun t => ∃ task, k.sched.tasks.cell t = some task ∧
            task.status = .waitingIo := Woken.one ht ⟨task, ht, hwait⟩
        refine ⟨⟨events', hk⟩, hfirst.trans (hwoken.mono fun u hu => ?_)⟩
        obtain ⟨task', hu, hs⟩ := hu
        obtain ⟨a, ha, _, _, hstatus⟩ := hfirst.parts hu
        refine ⟨a, ha, ?_⟩
        rcases hstatus with hstatus | hstatus
        · rw [← hstatus, hs]
        · rw [hs] at hstatus
          cases hstatus
      next =>
        obtain ⟨⟨events', hk⟩, hwoken⟩ := ih h
        exact ⟨⟨events', hk⟩, hwoken⟩

theorem wakeIo_woken {k k' : Kernel} {kbEvent : KeyboardEvent} (h : k.wakeIo kbEvent = .ok k') :
    (∃ events, k' = { k with events, sched := k'.sched }) ∧ Woken k.sched k'.sched
      fun t => ∃ task, k.sched.tasks.cell t = some task ∧ task.status = .waitingIo :=
  wakeLoop_woken (fun _ _ => ⟨_, rfl⟩) h

theorem wakeNet_woken {k k' : Kernel} (h : k.wakeNet = .ok k') :
    (∃ events, k' = { k with events, sched := k'.sched }) ∧ Woken k.sched k'.sched
      fun t => ∃ task, k.sched.tasks.cell t = some task ∧ task.status = .waitingIo :=
  wakeLoop_woken (fun _ k => ⟨k.events, rfl⟩) h

/-- A futex wake makes tasks running that hold a futex, whatever their status is. -/
theorem wakeFutexLoop_woken {pointer turns : Nat} {k k' : Kernel} {node : Option Nat}
    (h : wakeFutexLoop pointer turns k node = .ok k') : k' = { k with sched := k'.sched } ∧
      Woken k.sched k'.sched fun t => (k.futexes t).head ≠ none := by
  induction turns generalizing k node with
  | zero =>
    cases node with
    | none =>
      cases h
      exact ⟨rfl, Woken.refl _ _⟩
    | some node => cases h
  | succ turns ih =>
    cases node with
    | none =>
      cases h
      exact ⟨rfl, Woken.refl _ _⟩
    | some node =>
      obtain ⟨current, _, h⟩ := Except.bind_eq_ok.mp h
      obtain ⟨task, htask, h⟩ := Except.bind_eq_ok.mp h
      obtain ⟨held, hheld, h⟩ := Except.bind_eq_ok.mp h
      have ht := CellStore.read_some_ok.mp htask
      split at h
      next hsome =>
        rw [CellStore.modify_live _ ht, Except.ok_bind] at h
        obtain ⟨hk, hwoken⟩ := ih h
        have hhead : (k.futexes current.value).head ≠ none := by
          intro hnone
          rw [DoublyLinkedList.get_empty hnone] at hheld
          exact hsome (Except.ok.inj hheld).symm
        have hfirst : Woken k.sched _ fun t => (k.futexes t).head ≠ none := Woken.one ht hhead
        exact ⟨hk, hfirst.trans hwoken⟩
      next => exact ih h

theorem resume_ok {k k' : Kernel} {result : Except Trap (Registers × Scheduler)}
    (h : k.resume result = .ok k') : ∃ context, result = .ok (context, k'.sched) ∧
      k' = { k with sched := k'.sched, loaded := some context } := by
  obtain ⟨⟨context, sched⟩, hr, h⟩ := Except.bind_eq_ok.mp h
  cases h
  exact ⟨context, hr, rfl⟩

/-- An event enters `schedule` with the registers `regs` and the scheduler `s`. -/
inductive Enters (hw : Platform) (k : Kernel) : Event → Registers → Scheduler → Prop
  | timer (regs : Registers) : Enters hw k (.timer regs) regs k.sched
  | yield (regs : Registers) : Enters hw k (.yield regs) regs k.sched
  | sleep {t : Nat} (ms : Nat) (regs : Registers) : k.sched.currentTask = some t →
      Enters hw k (.sleep ms regs) regs (k.sched.slept hw t ms)
  | awaitIo {t : Nat} (regs : Registers) : k.sched.currentTask = some t →
      Enters hw k (.awaitIo regs) regs (k.sched.awaited t)
  | futexTurn {t : Nat} (task pointer : Nat) (regs : Registers) : k.sched.currentTask = some t →
      Enters hw k (.futexTurn task pointer regs) regs (k.sched.awaited t)

/-- The tasks that an event may wake. -/
inductive Wakes (k : Kernel) : Event → (Nat → Prop) → Prop
  | wakeIo (kbEvent : KeyboardEvent) : Wakes k (.wakeIo kbEvent)
      fun t => ∃ task, k.sched.tasks.cell t = some task ∧ task.status = .waitingIo
  | wakeNet : Wakes k .wakeNet
      fun t => ∃ task, k.sched.tasks.cell t = some task ∧ task.status = .waitingIo
  | futexWake (pointer : Nat) : Wakes k (.futexWake pointer) fun t => (k.futexes t).head ≠ none

/-- Everything that an event can do to a kernel whose queue is `ns` with the cursor at `c`. -/
inductive Effect (hw : Platform) (k : Kernel) (ns : List (Nat × Nat)) (c : Nat) :
    Event → Kernel → Prop
  | addTask {k' : Kernel} (new : NewTask) (a c' : Nat)
      (coherent : Coherent k'.sched ((a, k.sched.tasks.next) :: ns) c')
      (sched : k'.sched = { (k.sched.create new).2 with queue := k'.sched.queue })
      (frame : k' = { k with
        sched := k'.sched
        events := k'.events
        futexes := Function.update k.futexes k.sched.tasks.next DoublyLinkedList.new
        waiting := Function.update k.waiting k.sched.tasks.next none }) :
      Effect hw k ns c (.addTask new) k'
  | wake {k' : Kernel} {e : Event} (which : Nat → Prop) (wakes : Wakes k e which)
      (woken : Woken k.sched k'.sched which)
      (frame : k' = { k with sched := k'.sched, events := k'.events }) : Effect hw k ns c e k'
  | switch {k' : Kernel} {e : Event} (regs context : Registers) (s : Scheduler)
      (enters : Enters hw k e regs s) (before : Coherent s ns c)
      (switched : Switched hw regs context s k'.sched ns)
      (frame : k' = { k with sched := k'.sched, loaded := some context }) : Effect hw k ns c e k'
  | wait {k' : Kernel} (t pointer : Nat) (value : BitVec 32) (regs context : Registers)
      (current : k.sched.currentTask = some t) (before : Coherent (k.sched.awaited t) ns c)
      (switched : Switched hw regs context (k.sched.awaited t) k'.sched ns)
      (list : DoublyLinkedList Nat)
      (frame : k' = { k with
        sched := k'.sched
        loaded := some context
        futexHandles := k'.futexHandles
        futexes := Function.update k.futexes t list
        waiting := Function.update k.waiting t (some pointer) }) :
      Effect hw k ns c (.futexWait pointer value value regs) k'
  | again (pointer : Nat) (value expected : BitVec 32) (regs : Registers)
      (unequal : value ≠ expected) : Effect hw k ns c (.futexWait pointer value expected regs) k
  | kill {k' : Kernel} (t : Nat) (task : Task) (q : TaskList) (s : Scheduler)
      (regs context : Registers) (busy : ns ≠ []) (current : k.sched.currentTask = some t)
      (live : k.sched.tasks.cell t = some task)
      (switched : Switched hw regs context { k.sched with queue := q } s (ns.eraseIdx c))
      (after : ∃ c', Coherent (s.deleted t task) (ns.eraseIdx c) c')
      (frame : k' = { k with sched := s.deleted t task, loaded := some context }) :
      Effect hw k ns c (.kill regs) k'
  | tcbSet (pointer : BitVec 64) : Effect hw k ns c (.tcbSet pointer) (k.sysTcbSet pointer)

theorem handler_effect {k k' : Kernel} {ns : List (Nat × Nat)} {c : Nat} {e : Event}
    {regs : Registers} {s : Scheduler} (he : Enters hw k e regs s) (h : Coherent s ns c)
    (hs : k.resume (s.handler hw fuel regs) = .ok k') : Effect hw k ns c e k' := by
  obtain ⟨context, hhandler, hframe⟩ := resume_ok hs
  exact .switch regs context s he h (h.handler hhandler).1 hframe

theorem awaitIo_ok {k k' : Kernel} {ns : List (Nat × Nat)} {c t : Nat} {regs : Registers}
    (h : Coherent k.sched ns c) (hc : k.sched.currentTask = some t)
    (hs : k.awaitIo hw fuel regs = .ok k') : ∃ context,
      Switched hw regs context (k.sched.awaited t) k'.sched ns ∧
      k' = { k with sched := k'.sched, loaded := some context } := by
  obtain ⟨u, task, hu, ht⟩ := h.current_task
  rw [hc] at hu
  obtain rfl := Option.some.inj hu
  obtain ⟨context, hawait, hframe⟩ := resume_ok hs
  rw [awaitIo_eq hc ht] at hawait
  exact ⟨context, ((h.awaited hc).handler hawait).1, hframe⟩

/-- The condition of the futex loop never holds, so a turn waits once more. -/
theorem futexTurn_ok {k k' : Kernel} {task pointer : Nat} {regs : Registers}
    {result : Option Return} (hs : k.futexTurn hw fuel task pointer regs = .ok (result, k')) :
    result = none ∧ k.awaitIo hw fuel regs = .ok k' := by
  obtain ⟨⟨left, k₁⟩, hturn, hs⟩ := Except.bind_eq_ok.mp hs
  obtain ⟨k₂, hawait, hturn⟩ := Except.bind_eq_ok.mp hturn
  cases hturn
  cases hs
  exact ⟨rfl, hawait⟩

theorem sysFutexWait_ok {k k' : Kernel} {pointer : Nat} {value expected : BitVec 32}
    {regs : Registers} {result : Option Return}
    (hs : k.sysFutexWait hw fuel pointer value expected regs = .ok (result, k')) :
    value ≠ expected ∧ result = some .eagain ∧ k' = k ∨
      value = expected ∧ result = none ∧ ∃ t handles list, k.sched.currentTask = some t ∧
        awaitIo hw fuel { k with
          futexHandles := handles
          futexes := Function.update k.futexes t list
          waiting := Function.update k.waiting t (some pointer) } regs = .ok k' := by
  unfold sysFutexWait at hs
  split at hs
  next hne =>
    cases hs
    exact Or.inl ⟨hne, rfl, rfl⟩
  next heq =>
    refine Or.inr ⟨not_not.mp heq, ?_⟩
    split at hs
    next => cases hs
    next t hc =>
      obtain ⟨handles, _, hs⟩ := Except.bind_eq_ok.mp hs
      obtain ⟨_, _, hs⟩ := Except.bind_eq_ok.mp hs
      obtain ⟨list, _, hs⟩ := Except.bind_eq_ok.mp hs
      obtain ⟨⟨left, k₁⟩, hblock, hs⟩ := Except.bind_eq_ok.mp hs
      obtain ⟨k₂, hawait, hblock⟩ := Except.bind_eq_ok.mp hblock
      cases hblock
      cases hs
      exact ⟨rfl, t, handles, list, hc, hawait⟩

theorem killAndYield_effect {k k' : Kernel} {ns : List (Nat × Nat)} {c : Nat} {regs : Registers}
    (h : Coherent k.sched ns c) (hne : k.sched.currentTask ≠ k.sched.idleTask)
    (hs : k.killAndYield hw fuel regs = .ok k') : Effect hw k ns c (.kill regs) k' := by
  obtain ⟨hbusy, _⟩ := h.looks.resolve_left hne
  unfold killAndYield at hs
  rw [h.queue.isEmpty_eq, if_neg (by simpa using hbusy)] at hs
  split at hs
  next => cases hs
  next t hc =>
    obtain ⟨task, htask, hs⟩ := Except.bind_eq_ok.mp hs
    obtain ⟨q, hq, hs⟩ := Except.bind_eq_ok.mp hs
    obtain ⟨after, hresume, hs⟩ := Except.bind_eq_ok.mp hs
    cases hs
    have ht := CellStore.read_some_ok.mp htask
    obtain ⟨context, hhandler, hframe⟩ := resume_ok hresume
    obtain ⟨hswitch, hafter⟩ := h.kill hc hne ht hq hhandler
    refine .kill t task q after.sched regs context hbusy hc ht hswitch hafter ?_
    rw [hframe]

/-- The effect of every event, if a task that exits is not the idle task. -/
theorem step_effect {k k' : Kernel} {ns : List (Nat × Nat)} {c : Nat} {e : Event}
    (h : Coherent k.sched ns c)
    (hkill : ∀ regs, e = .kill regs → k.sched.currentTask ≠ k.sched.idleTask)
    (hs : k.step hw fuel e = .ok k') : Effect hw k ns c e k' := by
  obtain ⟨t, task, hc, ht⟩ := h.current_task
  cases e with
  | addTask new =>
    obtain ⟨s, hadd, hs⟩ := Except.bind_eq_ok.mp hs
    cases hs
    obtain ⟨⟨a, c', hcoh⟩, hsched⟩ := h.addTask hadd
    exact .addTask new a c' hcoh hsched rfl
  | wakeIo kbEvent =>
    obtain ⟨⟨events, hk⟩, hwoken⟩ := wakeIo_woken hs
    exact .wake _ (.wakeIo kbEvent) hwoken (by rw [hk])
  | wakeNet =>
    obtain ⟨⟨events, hk⟩, hwoken⟩ := wakeNet_woken hs
    exact .wake _ .wakeNet hwoken (by rw [hk])
  | timer regs => exact handler_effect (.timer regs) h hs
  | yield regs => exact handler_effect (.yield regs) h hs
  | sleep ms regs =>
    have hresume : k.resume (k.sched.sleep hw fuel ms regs) = .ok k' := hs
    rw [sleep_eq hc ht] at hresume
    exact handler_effect (.sleep ms regs hc) (h.slept hc ms) hresume
  | awaitIo regs =>
    obtain ⟨context, hswitch, hframe⟩ := awaitIo_ok h hc hs
    exact .switch regs context _ (.awaitIo regs hc) (h.awaited hc) hswitch hframe
  | kill regs => exact killAndYield_effect h (hkill regs rfl) hs
  | futexWait pointer value expected regs =>
    cases hwait : k.sysFutexWait hw fuel pointer value expected regs with
    | error trap =>
      rw [step, hwait] at hs
      cases hs
    | ok result =>
      obtain ⟨result, k₁⟩ := result
      rw [step, hwait] at hs
      cases hs
      rcases sysFutexWait_ok hwait with ⟨hne, _, rfl⟩ | ⟨rfl, _, u, handles, list, hu, hawait⟩
      · exact .again pointer value expected regs hne
      · obtain ⟨context, hswitch, hframe⟩ := awaitIo_ok (k := { k with
          futexHandles := handles
          futexes := Function.update k.futexes u list
          waiting := Function.update k.waiting u (some pointer) }) h hu hawait
        refine .wait u pointer value regs context hu (h.awaited hu) hswitch list ?_
        rw [hframe]
  | futexTurn task pointer regs =>
    cases hturn : k.futexTurn hw fuel task pointer regs with
    | error trap =>
      rw [step, hturn] at hs
      cases hs
    | ok result =>
      obtain ⟨result, k₁⟩ := result
      rw [step, hturn] at hs
      cases hs
      obtain ⟨_, hawait⟩ := futexTurn_ok hturn
      obtain ⟨context, hswitch, hframe⟩ := awaitIo_ok h hc hawait
      exact .switch regs context _ (.futexTurn task pointer regs hc) (h.awaited hc) hswitch hframe
  | futexWake pointer =>
    obtain ⟨hk, hwoken⟩ := wakeFutexLoop_woken hs
    exact .wake _ (.futexWake pointer) hwoken (by rw [hk])
  | tcbSet pointer =>
    cases hs
    exact .tcbSet pointer

theorem Enters.unique {k : Kernel} {e : Event} {regs regs' : Registers} {s s' : Scheduler}
    (h : Enters hw k e regs s) (h' : Enters hw k e regs' s') : regs' = regs ∧ s' = s := by
  cases h with
  | timer => cases h'; exact ⟨rfl, rfl⟩
  | yield => cases h'; exact ⟨rfl, rfl⟩
  | sleep ms _ hc =>
    cases h' with
    | sleep _ _ hc' =>
      rw [hc] at hc'
      obtain rfl := Option.some.inj hc'
      exact ⟨rfl, rfl⟩
  | awaitIo _ hc =>
    cases h' with
    | awaitIo _ hc' =>
      rw [hc] at hc'
      obtain rfl := Option.some.inj hc'
      exact ⟨rfl, rfl⟩
  | futexTurn _ _ _ hc =>
    cases h' with
    | futexTurn _ _ _ hc' =>
      rw [hc] at hc'
      obtain rfl := Option.some.inj hc'
      exact ⟨rfl, rfl⟩

/-- An event that enters `schedule` does nothing else. -/
theorem Effect.entered {k k' : Kernel} {ns : List (Nat × Nat)} {c : Nat} {e : Event}
    {regs : Registers} {s : Scheduler} (he : Effect hw k ns c e k') (henters : Enters hw k e regs s) :
    Coherent s ns c ∧ ∃ context, Switched hw regs context s k'.sched ns ∧
      k'.loaded = some context := by
  cases he with
  | switch regs' context s' henters' hbefore hswitch hframe =>
    obtain ⟨rfl, rfl⟩ := henters.unique henters'
    refine ⟨hbefore, context, hswitch, ?_⟩
    rw [hframe]
  | wake which hwakes => cases hwakes <;> cases henters
  | _ => cases henters

/-- Every event leaves the scheduler in order. -/
theorem Effect.coherent {k k' : Kernel} {ns : List (Nat × Nat)} {c : Nat} {e : Event}
    (he : Effect hw k ns c e k') (h : Coherent k.sched ns c) :
    ∃ ns' c', Coherent k'.sched ns' c' := by
  cases he with
  | addTask new a c' hcoh => exact ⟨_, c', hcoh⟩
  | wake which _ hwoken => exact ⟨ns, c, hwoken.coherent h⟩
  | switch regs context s _ hbefore hswitch =>
    exact ⟨ns, hswitch.coherent hbefore.toStocked hbefore.distinct⟩
  | wait t pointer value regs context _ hbefore hswitch =>
    exact ⟨ns, hswitch.coherent hbefore.toStocked hbefore.distinct⟩
  | again => exact ⟨ns, c, h⟩
  | kill t task q s regs context _ _ _ _ hafter hframe =>
    rw [hframe]
    exact ⟨_, hafter⟩
  | tcbSet => exact ⟨ns, c, h⟩

end Kernel

end UmbraOS
