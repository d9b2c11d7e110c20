import UmbraOS.SchedulerRuns
import UmbraOS.SchedulerSwitch

namespace UmbraOS

theorem CellStore.adjust_adjust {α : Type} (s : CellStore α) (a : Nat) (f g : α → α) :
    (s.adjust a f).adjust a g = s.adjust a fun x => g (f x) := by
  have hcell : ((s.adjust a f).adjust a g).cell = (s.adjust a fun x => g (f x)).cell := by
    funext b
    simp only [adjust_cell]
    split
    next => rw [Option.map_map]; rfl
    next => rfl
  cases hl : (s.adjust a f).adjust a g
  cases hr : s.adjust a fun x => g (f x)
  rw [hl, hr] at hcell
  have hnext : ((s.adjust a f).adjust a g).next = (s.adjust a fun x => g (f x)).next := rfl
  rw [hl, hr] at hnext
  simp only at hcell hnext
  subst hcell hnext
  rfl

namespace Scheduler

variable {hw : Platform} {fuel : Nat}

/-- The scheduler between two events: no task is queued twice, and the current task is the idle
task, or it has been started and is the one at the cursor. -/
structure Coherent (s : Scheduler) (ns : List (Nat × Nat)) (c : Nat) : Prop
    extends Stocked s ns c where
  distinct : (ns.map Prod.snd).Nodup
  looks : Looks s ns c
  started : ∀ t task, s.currentTask = some t → s.currentTask ≠ s.idleTask →
    s.tasks.cell t = some task → task.status ≠ .ready

theorem init_coherent (idle : NewTask) : Coherent (init idle) [] 0 :=
  ⟨(init_live idle).toStocked, List.nodup_nil, Or.inl rfl, fun _ _ _ hne => absurd rfl hne⟩

theorem Coherent.current_task {s : Scheduler} {ns : List (Nat × Nat)} {c : Nat}
    (h : Coherent s ns c) : ∃ t task, s.currentTask = some t ∧ s.tasks.cell t = some task :=
  h.toQueued.looks_live h.looks

theorem Coherent.live {s : Scheduler} {ns : List (Nat × Nat)} {c : Nat} (h : Coherent s ns c) :
    Live s ns c := by
  refine ⟨h.toStocked, ?_⟩
  rcases h.looks with hidle | ⟨hne, hat⟩
  · exact Or.inl hidle
  · obtain ⟨u, task, hu, _⟩ := h.taskAt_live hne c
    obtain ⟨p, hp, hpu⟩ := taskAt_mem hu
    exact Or.inr ⟨p, hp, by rw [hat, hu, hpu]⟩

/-- A task that runs and is not the idle task is the one stored at the cursor. -/
theorem Coherent.getCurrent {s : Scheduler} {ns : List (Nat × Nat)} {c t : Nat}
    (h : Coherent s ns c) (hc : s.currentTask = some t) (hne : s.currentTask ≠ s.idleTask) :
    s.queue.getCurrent = .ok t ∧ ∃ a, ns[c]? = some (a, t) := by
  obtain ⟨hbusy, hat⟩ := h.looks.resolve_left hne
  rw [h.taskAt_cursor hbusy, hc] at hat
  obtain ⟨⟨a, u⟩, hp, hu⟩ := Option.map_eq_some_iff.mp hat.symm
  obtain rfl : u = t := hu
  exact ⟨h.queue.getCurrent hp, a, hp⟩

theorem Roused.parts {lo hi : Nat} {before : Option Task} {b : Task}
    (h : Roused hw lo hi before (some b)) : ∃ a, before = some a ∧ b.context = a.context ∧
      b.addressSpace = a.addressSpace ∧ b.tscSleep = a.tscSleep := by
  rcases h with h | ⟨a, ha, hb, _⟩
  · exact ⟨b, h.symm, rfl, rfl, rfl⟩
  · obtain rfl := Option.some.inj hb
    exact ⟨a, ha, rfl, rfl, rfl⟩

theorem Switched.contexts_live {regs context : Registers} {s s' : Scheduler}
    {ns : List (Nat × Nat)} (h : Switched hw regs context s s' ns) {a : Nat} {r : Registers}
    (hr : s.contexts.cell a = some r) : ∃ r', s'.contexts.cell a = some r' := by
  rcases h.saves with ⟨_, he⟩ | ⟨_, t, task, _, _, he⟩
  · rw [he]
    exact ⟨r, hr⟩
  · rw [he]
    split
    next => exact ⟨r, hr⟩
    next =>
      rw [CellStore.adjust_cell, hr]
      split <;> exact ⟨_, rfl⟩

theorem Switched.stocked {regs context : Registers} {s s' : Scheduler} {ns : List (Nat × Nat)}
    {c c' : Nat} (h : Switched hw regs context s s' ns) (hs : Stocked s ns c)
    (hq : Queued s' ns c') : Stocked s' ns c' := by
  have hparts : ∀ t task, s'.tasks.cell t = some task → ∃ old, s.tasks.cell t = some old ∧
      task.context = old.context ∧ task.addressSpace = old.addressSpace := by
    intro t task ht
    have hroused := h.task t
    rw [ht] at hroused
    obtain ⟨old, ho, hctx, hspace, _⟩ := hroused.parts
    exact ⟨old, ho, hctx, hspace⟩
  refine ⟨hq, ?_, ?_, ?_, ?_⟩
  · rw [h.idleTask]
    exact hs.idleOut
  · intro t task ht
    obtain ⟨old, ho, hctx, _⟩ := hparts t task ht
    obtain ⟨r, hr⟩ := hs.context t old ho
    rw [hctx]
    exact h.contexts_live hr
  · intro t task ht
    obtain ⟨old, ho, _, hspace⟩ := hparts t task ht
    rw [hspace, h.spaces]
    exact hs.space t old ho
  · intro t u a b ht hu hne
    obtain ⟨a', ha, ha₁, ha₂⟩ := hparts t a ht
    obtain ⟨b', hb, hb₁, hb₂⟩ := hparts u b hu
    rw [ha₁, ha₂, hb₁, hb₂]
    exact hs.apart t u a' b' ha hb hne

theorem Switched.coherent {regs context : Registers} {s s' : Scheduler} {ns : List (Nat × Nat)}
    {c : Nat} (h : Switched hw regs context s s' ns) (hs : Stocked s ns c)
    (hd : (ns.map Prod.snd).Nodup) : ∃ c', Coherent s' ns c' := by
  obtain ⟨c', hq, hl⟩ := h.cursor
  refine ⟨c', h.stocked hs hq, hd, hl, fun t task hc _ ht hready => ?_⟩
  obtain ⟨u, task', hu, ht', hruns⟩ := h.runs
  rw [hc] at hu
  obtain rfl := Option.some.inj hu
  rw [ht] at ht'
  obtain rfl := Option.some.inj ht'
  rw [hready] at hruns
  cases hruns

theorem Coherent.handler {s s' : Scheduler} {ns : List (Nat × Nat)} {c : Nat}
    {regs context : Registers} (h : Coherent s ns c)
    (hs : s.handler hw fuel regs = .ok (context, s')) :
    Switched hw regs context s s' ns ∧ ∃ c', Coherent s' ns c' := by
  have hswitch := h.toQueued.handler_switched hs
  exact ⟨hswitch, hswitch.coherent h.toStocked h.distinct⟩

/-- An update of the current task that does not make it ready. -/
theorem Coherent.adjustCurrent {s : Scheduler} {ns : List (Nat × Nat)} {c t : Nat}
    (h : Coherent s ns c) (hc : s.currentTask = some t) {f : Task → Task}
    (hctx : ∀ x, (f x).context = x.context) (hspace : ∀ x, (f x).addressSpace = x.addressSpace)
    (hready : ∀ x, (f x).status ≠ .ready) (reads : Nat) :
    Coherent { s with tscReads := reads, tasks := s.tasks.adjust t f } ns c := by
  have hs := h.toStocked.adjust t hctx hspace
  refine ⟨⟨⟨hs.queue, hs.queued, hs.idle⟩, hs.idleOut, hs.context, hs.space, hs.apart⟩, h.distinct,
    h.looks, fun u task hu _ ht => ?_⟩
  rw [hc] at hu
  obtain rfl := Option.some.inj hu
  obtain ⟨v, old, hv, ho⟩ := h.current_task
  rw [hc] at hv
  obtain rfl := Option.some.inj hv
  rw [CellStore.adjust_cell_self _ ho] at ht
  obtain rfl := Option.some.inj ht
  exact hready old

def wakeTime (hw : Platform) (s : Scheduler) (ms : Nat) : Nat :=
  u64 (hw.tsc s.tscReads + u64 (hw.cyclesPerMs * ms))

/-- The scheduler at the `yield` of `sleep`. -/
def slept (hw : Platform) (s : Scheduler) (t ms : Nat) : Scheduler :=
  { s with
    tscReads := s.tscReads + 1
    tasks := s.tasks.adjust t fun x => { x with status := .sleeping, tscSleep := wakeTime hw s ms } }

/-- The scheduler at the `yield` of `await_io`. -/
def awaited (s : Scheduler) (t : Nat) : Scheduler :=
  { s with tasks := s.tasks.adjust t fun x => { x with status := .waitingIo } }

theorem sleep_eq {s : Scheduler} {t ms : Nat} {task : Task} (hc : s.currentTask = some t)
    (ht : s.tasks.cell t = some task) (regs : Registers) :
    s.sleep hw fuel ms regs = (s.slept hw t ms).handler hw fuel regs := by
  have hm : (s.tasks.adjust t fun x => { x with status := .sleeping }).modify s.currentTask
      (fun x => { x with tscSleep := wakeTime hw s ms }) = .ok (s.tasks.adjust t fun x =>
        { x with status := .sleeping, tscSleep := wakeTime hw s ms }) := by
    rw [hc, CellStore.modify_live _ (CellStore.adjust_cell_self _ ht), CellStore.adjust_adjust]
  unfold Scheduler.sleep
  rw [setStatus_eq hc ht, Except.ok_bind]
  unfold wakeTime at hm
  simp only [hm, Except.ok_bind]
  rfl

theorem awaitIo_eq {s : Scheduler} {t : Nat} {task : Task} (hc : s.currentTask = some t)
    (ht : s.tasks.cell t = some task) (regs : Registers) :
    s.awaitIo hw fuel regs = (s.awaited t).handler hw fuel regs := by
  unfold Scheduler.awaitIo
  rw [setStatus_eq hc ht, Except.ok_bind]
  rfl

theorem Coherent.slept {s : Scheduler} {ns : List (Nat × Nat)} {c t : Nat} (h : Coherent s ns c)
    (hc : s.currentTask = some t) (ms : Nat) : Coherent (s.slept hw t ms) ns c :=
  h.adjustCurrent hc (f := fun x =>
    { x with status := .sleeping, tscSleep := wakeTime hw s ms }) (fun _ => rfl) (fun _ => rfl)
    (fun _ h => Status.noConfusion h) _

theorem Coherent.awaited {s : Scheduler} {ns : List (Nat × Nat)} {c t : Nat} (h : Coherent s ns c)
    (hc : s.currentTask = some t) : Coherent (s.awaited t) ns c :=
  h.adjustCurrent hc (f := fun x => { x with status := .waitingIo }) (fun _ => rfl) (fun _ => rfl)
    (fun _ h => Status.noConfusion h) s.tscReads

/-- A new task goes in front of the queue, and the cursor stays at its node. -/
theorem Coherent.addTask {s s' : Scheduler} {ns : List (Nat × Nat)} {c : Nat}
    (h : Coherent s ns c) {new : NewTask} (hs : (s.create new).2.addTask (s.create new).1 = .ok s') :
    (∃ a c', Coherent s' ((a, s.tasks.next) :: ns) c') ∧
      s' = { (s.create new).2 with queue := s'.queue } := by
  obtain ⟨q, hq, hs⟩ := Except.bind_eq_ok.mp hs
  obtain rfl := (Except.ok.inj hs).symm
  have hlive := h.live.addTask new
  have hstocked := h.toStocked.create new
  have hfresh : ∀ p ∈ ns, p.2 ≠ s.tasks.next := by
    intro p hp
    obtain ⟨task, ht⟩ := h.queued p hp
    exact Nat.ne_of_lt (CellStore.lt_next ht)
  obtain ⟨a, c', hholds, hlook⟩ : ∃ a c', q.Holds ((a, s.tasks.next) :: ns) c' ∧
      (ns ≠ [] → taskAt ((a, s.tasks.next) :: ns) c' = taskAt ns c) := by
    by_cases hne : ns = []
    · subst hne
      obtain ⟨q', hq', hholds⟩ := TaskList.addTask_empty h.queue s.tasks.next
      obtain rfl := Except.ok.inj (hq.symm.trans hq')
      exact ⟨_, 0, hholds, fun hn => absurd rfl hn⟩
    · obtain ⟨q', hq', hholds⟩ := TaskList.addTask_cons h.queue hne s.tasks.next
      obtain rfl := Except.ok.inj (hq.symm.trans hq')
      refine ⟨_, c + 1, hholds, fun _ => ?_⟩
      have hlt : c < ns.length := h.queue.cursor.resolve_left hne
      unfold taskAt
      rw [Nat.mod_eq_of_lt hlt, Nat.mod_eq_of_lt (by rw [List.length_cons]; omega),
        List.getElem?_cons_succ]
  obtain ⟨ti, taski, hi, hti⟩ := h.idle
  refine ⟨⟨a, c', ⟨⟨⟨hholds, ?_, hstocked.idle⟩, ?_, hstocked.context, hstocked.space,
    hstocked.apart⟩, ?_, ?_, ?_⟩⟩, rfl⟩
  · intro p hp
    rcases List.mem_cons.mp hp with rfl | hp
    · exact ⟨_, CellStore.alloc_cell_self _ _⟩
    · exact hstocked.queued p hp
  · intro p hp
    rcases List.mem_cons.mp hp with rfl | hp
    · have hlt := CellStore.lt_next hti
      intro he
      have hidle : s.idleTask = some s.tasks.next := he
      rw [hi] at hidle
      have := Option.some.inj hidle
      omega
    · exact h.idleOut p hp
  · rw [List.map_cons, List.nodup_cons]
    refine ⟨fun hm => ?_, h.distinct⟩
    obtain ⟨p, hp, he⟩ := List.mem_map.mp hm
    exact hfresh p hp he
  · rcases h.looks with hidle | ⟨hne, hat⟩
    · exact Or.inl hidle
    · exact Or.inr ⟨List.cons_ne_nil _ _, hat.trans (hlook hne).symm⟩
  · intro t task hc hne ht
    have hold : s.tasks.cell t = some task := by
      have hct : s.currentTask = some t := hc
      obtain ⟨u, old, hu, ho⟩ := h.current_task
      rw [hct] at hu
      obtain rfl := Option.some.inj hu
      have hkeep := CellStore.alloc_cell_of_live
        (⟨.ready, s.spaces.next, s.contexts.next, new.tscSleep⟩ : Task) ho
      have hsame : (s.tasks.alloc ⟨.ready, s.spaces.next, s.contexts.next, new.tscSleep⟩).cell t =
          some task := ht
      rw [hkeep] at hsame
      rw [ho, hsame]
    exact h.started t task hc hne hold

/-- The task at the cursor is nowhere else in the queue. -/
theorem Coherent.erased_ne {s : Scheduler} {ns : List (Nat × Nat)} {c a t : Nat}
    (h : Coherent s ns c) (hp : ns[c]? = some (a, t)) : ∀ p ∈ ns.eraseIdx c, p.2 ≠ t := by
  intro p hp' he
  obtain ⟨j, hjc, hj⟩ := List.mem_eraseIdx_iff_getElem?.mp hp'
  have h₁ : (ns.map Prod.snd)[j]? = some t := by
    rw [List.getElem?_map, hj, Option.map_some, he]
  have h₂ : (ns.map Prod.snd)[c]? = some t := by
    rw [List.getElem?_map, hp, Option.map_some]
  obtain ⟨hl, _⟩ := List.getElem?_eq_some_iff.mp h₁
  exact hjc ((List.getElem?_inj hl h.distinct).mp (h₁.trans h₂.symm))

/-- The task at the cursor leaves the queue, `schedule` runs with the deleted task still in its
memory, and then the task is gone. -/
theorem Coherent.kill {s s' : Scheduler} {ns : List (Nat × Nat)} {c t : Nat} {task : Task}
    {q : TaskList} {regs context : Registers} (h : Coherent s ns c)
    (hc : s.currentTask = some t) (hne : s.currentTask ≠ s.idleTask)
    (ht : s.tasks.cell t = some task) (hq : s.queue.removeCurrent = .ok q)
    (hs : { s with queue := q }.handler hw fuel regs = .ok (context, s')) :
    Switched hw regs context { s with queue := q } s' (ns.eraseIdx c) ∧
      ∃ c', Coherent (s'.deleted t task) (ns.eraseIdx c) c' := by
  obtain ⟨hbusy, hat⟩ := h.looks.resolve_left hne
  obtain ⟨_, a, hp⟩ := h.getCurrent hc hne
  obtain ⟨q', hq', hholds⟩ := TaskList.removeCurrent_holds h.queue hbusy
  obtain rfl := Except.ok.inj (hq.symm.trans hq')
  have hsub : ∀ p ∈ ns.eraseIdx c, p ∈ ns := fun p hp => List.mem_of_mem_eraseIdx hp
  have hdist : ((ns.eraseIdx c).map Prod.snd).Nodup :=
    h.distinct.sublist ((List.eraseIdx_sublist ns c).map Prod.snd)
  have hout := h.erased_ne hp
  have hstocked : Stocked { s with queue := q } (ns.eraseIdx c)
      (if c + 1 < ns.length then c else 0) :=
    ⟨⟨hholds, fun p hp => h.queued p (hsub p hp), h.idle⟩,
      fun p hp => h.idleOut p (hsub p hp), h.context, h.space, h.apart⟩
  have hswitch := hstocked.toQueued.handler_switched hs
  refine ⟨hswitch, ?_⟩
  obtain ⟨c', hcoh⟩ := hswitch.coherent hstocked hdist
  have hidle : s.idleTask ≠ some t := fun he => hne (hc.trans he.symm)
  have hidle' : s'.idleTask ≠ some t := by
    rw [hswitch.idleTask]
    exact hidle
  have hlive : ∀ u x, (s'.tasks.erase t).cell u = some x → u ≠ t ∧ s'.tasks.cell u = some x :=
    fun u x hu => CellStore.erase_cell_live hu
  have hdead : ∃ dead, s'.tasks.cell t = some dead ∧ dead.context = task.context ∧
      dead.addressSpace = task.addressSpace := by
    rcases hswitch.task t with he | ⟨old, ho, he, _⟩
    · exact ⟨task, he.trans ht, rfl, rfl⟩
    · have hold : s.tasks.cell t = some old := ho
      rw [ht] at hold
      obtain rfl := Option.some.inj hold
      exact ⟨_, he, rfl, rfl⟩
  obtain ⟨dead, hdt, hdc, hds⟩ := hdead
  obtain ⟨i, itask, hi, hit⟩ := hcoh.idle
  refine ⟨c', ⟨⟨⟨hcoh.queue, ?_, i, itask, hi, ?_⟩, hcoh.idleOut, ?_, ?_, ?_⟩, hdist, hcoh.looks, ?_⟩⟩
  · intro p hp
    obtain ⟨x, hx⟩ := hcoh.queued p hp
    exact ⟨x, (CellStore.erase_cell_ne _ (hout p hp)).trans hx⟩
  · refine (CellStore.erase_cell_ne _ ?_).trans hit
    rintro rfl
    exact hidle' hi
  · intro u x hu
    obtain ⟨hut, hu'⟩ := hlive u x hu
    obtain ⟨r, hr⟩ := hcoh.context u x hu'
    have hap := hcoh.apart u t x dead hu' hdt hut
    rw [hdc] at hap
    exact ⟨r, (CellStore.erase_cell_ne _ hap.1).trans hr⟩
  · intro u x hu
    obtain ⟨hut, hu'⟩ := hlive u x hu
    obtain ⟨sp, hsp⟩ := hcoh.space u x hu'
    have hap := hcoh.apart u t x dead hu' hdt hut
    rw [hds] at hap
    exact ⟨sp, (CellStore.erase_cell_ne _ hap.2).trans hsp⟩
  · intro u v x y hu hv huv
    exact hcoh.apart u v x y (hlive u x hu).2 (hlive v y hv).2 huv
  · intro u x hcu hnu hu
    exact hcoh.started u x hcu hnu (hlive u x hu).2

end Scheduler

end UmbraOS
