import UmbraOS.Histories
import UmbraOS.KernelSteps
import UmbraOS.Keyboard

namespace UmbraOS

/-- A call of `Tty::read`, with what it has stored in its buffer. -/
structure TtyRead where
  length : Nat
  text : List Byte

/-- What a task does with the keyboard: the call of `Tty::read` that it is in, if any. Three fields are
not in the source: how many events had been passed to `wake_io` when the task was added, the events
that it has taken, with whether a read took them, and the reads that have returned. -/
structure Listener where
  reading : Option TtyRead
  since : Nat
  taken : List (KeyboardEvent × Bool)
  texts : List TtyRead

/-- The kernel with its keyboard, and the characters that reads of the terminal have printed, each with
the task. Not in the source: the bytes that the port has given, and the events passed to `wake_io`. -/
structure KernelKeys where
  kernel : Kernel
  keyboard : Keyboard
  listeners : Nat → Listener
  printed : List (Nat × Byte)
  received : List Byte
  passed : List KeyboardEvent

/-- The calls are made by the current task. -/
inductive KeyAction
  | key (scancode : Byte)
  | kernel (e : Kernel.Event)
  | getKbEvent
  | read (length : Nat)
  | readTurn (regs : Registers)

namespace Listener

def new (since : Nat) : Listener := ⟨none, since, [], []⟩

/-- A return from `Tty::read`. -/
def returned (l : Listener) (r : TtyRead) : Listener :=
  { l with reading := none, texts := l.texts ++ [r] }

/-- What all reads together have stored. -/
def text (l : Listener) : List Byte :=
  (l.texts.map TtyRead.text).flatten ++ (l.reading.elim [] TtyRead.text)

/-- The characters of the keys pressed among the events that reads took. -/
def typed (l : Listener) : List Byte :=
  (l.taken.filter fun p => p.2 && p.1.pressed).map fun p => p.1.ascii

end Listener

namespace KernelKeys

variable (hw : Platform) (fuel : Nat)

def newline : Byte := 10#8

def init (idle : NewTask) : KernelKeys where
  kernel := Kernel.init idle
  keyboard := Keyboard.zeroed
  listeners _ := Listener.new 0
  printed := []
  received := []
  passed := []

def setListener (s : KernelKeys) (t : Nat) (l : Listener) : KernelKeys :=
  { s with listeners := Function.update s.listeners t l }

def setEvents (s : KernelKeys) (t : Nat) (ring : Ringbuffer KeyboardEvent 5) : KernelKeys :=
  { s with kernel := { s.kernel with events := Function.update s.kernel.events t ring } }

/-- A keyboard interrupt. -/
def key (s : KernelKeys) (scancode : Byte) : Except Trap KernelKeys := do
  let (event, keyboard) := s.keyboard.handler scancode
  let s := { s with keyboard, received := s.received ++ [scancode] }
  match event with
  | none => return s
  | some kbEvent =>
    let kernel ← s.kernel.wakeIo kbEvent
    return { s with kernel, passed := s.passed ++ [kbEvent] }

def kernelEvent (s : KernelKeys) (e : Kernel.Event) : Except Trap KernelKeys := do
  let kernel ← s.kernel.step hw fuel e
  let s' := { s with kernel }
  match e with
  | .addTask _ => return s'.setListener s.kernel.sched.tasks.next (Listener.new s.passed.length)
  | _ => return s'

def sysGetKbEvent (s : KernelKeys) (t : Nat) : Option KeyboardEvent × KernelKeys :=
  match (s.kernel.events t).read with
  | (none, _) => (none, s)
  | (some event, ring) =>
    let l := s.listeners t
    (some event, (s.setEvents t ring).setListener t { l with taken := l.taken ++ [(event, false)] })

/-- The part of the loop of `Tty::read` behind `block_on`; an `unwrap` of nothing stops. -/
def readEvent (s : KernelKeys) (t : Nat) (r : TtyRead) : Except Trap KernelKeys :=
  match (s.kernel.events t).read with
  | (none, _) => throw .nullDeref
  | (some event, ring) =>
    let s := s.setEvents t ring
    let l := s.listeners t
    let l := { l with taken := l.taken ++ [(event, true)] }
    if !event.pressed then return s.setListener t l
    else
      let r := { r with text := r.text ++ [event.ascii] }
      let s := { s with printed := s.printed ++ [(t, event.ascii)] }
      if event.ascii = newline then return s.setListener t (l.returned r)
      else return s.setListener t { l with reading := some r }

/-- A turn of the loop of `Tty::read`, or of the loop in `block_on`. -/
def readTurn (s : KernelKeys) (t : Nat) (r : TtyRead) (regs : Registers) : Except Trap KernelKeys :=
  if r.text.length = r.length then return s.setListener t ((s.listeners t).returned r)
  else do
    let (left, kernel) ← s.kernel.blockOn hw fuel (fun k => !(k.events t).isEmpty) regs
    let s := { s with kernel }
    if left then s.readEvent t r else return s

def step (s : KernelKeys) : KeyAction → Except Trap KernelKeys
  | .key scancode => s.key scancode
  | .kernel e => s.kernelEvent hw fuel e
  | .getKbEvent =>
    match s.kernel.sched.currentTask with
    | none => throw .nullDeref
    | some t => return (s.sysGetKbEvent t).2
  | .read length =>
    match s.kernel.sched.currentTask with
    | none => throw .nullDeref
    | some t => return s.setListener t { s.listeners t with reading := some ⟨length, []⟩ }
  | .readTurn regs =>
    match s.kernel.sched.currentTask with
    | none => throw .nullDeref
    | some t =>
      match (s.listeners t).reading with
      | none => return s
      | some r => s.readTurn hw fuel t r regs

/-- The current task is not in `Tty::read`. -/
def Outside (s : KernelKeys) : Prop :=
  ∀ t, s.kernel.sched.currentTask = some t → (s.listeners t).reading = none

/-- A task makes other calls only outside of `Tty::read`; the idle task does not exit, and only the
keyboard calls `wake_io`. -/
def InTurn (s : KernelKeys) : KeyAction → Prop
  | .key _ | .readTurn _ | .kernel (.addTask _) | .kernel .wakeNet | .kernel (.timer _) => True
  | .kernel (.wakeIo _) => False
  | .kernel (.kill _) => Outside s ∧ s.kernel.sched.currentTask ≠ s.kernel.sched.idleTask
  | .kernel _ | .getKbEvent | .read _ => Outside s

end KernelKeys

namespace Scheduler

/-- A task waits for an interrupt of a device. -/
def Asleep (s : Scheduler) (t : Nat) : Prop := ∃ task, s.tasks.cell t = some task ∧ task.status = .waitingIo

variable {hw : Platform} {s s' : Scheduler} {t u : Nat}

theorem Woken.asleep {which : Nat → Prop} (h : Woken s s' which) (hs : Asleep s' t) : Asleep s t := by
  obtain ⟨task, ht, hstatus⟩ := hs
  obtain ⟨old, ho, _, _, he⟩ := h.parts ht
  rw [hstatus] at he
  rcases he with he | he
  · exact ⟨old, ho, he.symm⟩
  · cases he

theorem Switched.asleep {regs context : Registers} {ns : List (Nat × Nat)}
    (h : Switched hw regs context s s' ns) (hs : Asleep s' t) : Asleep s t := by
  obtain ⟨task, ht, hstatus⟩ := hs
  rcases h.task t with he | ⟨old, ho, he, _⟩
  · exact ⟨task, he ▸ ht, hstatus⟩
  · rw [ht] at he
    obtain rfl := Option.some.inj he
    cases hstatus

theorem CurrentRuns.awake (h : CurrentRuns s) (t : Nat) (hc : s.currentTask = some t) : ¬Asleep s t := by
  obtain ⟨u, task, hu, ht, hruns⟩ := h
  obtain rfl := Option.some.inj (hc.symm.trans hu)
  rintro ⟨other, ho, hstatus⟩
  obtain rfl := Option.some.inj (ht.symm.trans ho)
  rw [hruns] at hstatus
  cases hstatus

theorem slept_asleep {ms : Nat} (hs : Asleep (s.slept hw t ms) u) : Asleep s u := by
  obtain ⟨task, ht, hstatus⟩ := hs
  rcases CellStore.adjust_cell_cases ht with ⟨_, ho⟩ | ⟨_, old, _, rfl⟩
  · exact ⟨task, ho, hstatus⟩
  · cases hstatus

theorem awaited_asleep (hs : Asleep (s.awaited t) u) (hne : u ≠ t) : Asleep s u := by
  obtain ⟨task, ht, hstatus⟩ := hs
  rcases CellStore.adjust_cell_cases ht with ⟨_, ho⟩ | ⟨he, _⟩
  · exact ⟨task, ho, hstatus⟩
  · exact absurd he hne

theorem deleted_asleep {task : Task} (hs : Asleep (s.deleted t task) u) : Asleep s u := by
  obtain ⟨other, ho, hstatus⟩ := hs
  exact ⟨other, (CellStore.erase_cell_live ho).2, hstatus⟩

end Scheduler

namespace Kernel

open Scheduler

variable {hw : Platform} {fuel : Nat}

/-- The walk of `wake_io` and `wake_net` comes to each queued task once, and leaves it awake. -/
theorem wakeLoop_reaches {touch : Nat → Kernel → Kernel}
    {f : Ringbuffer KeyboardEvent 5 → Ringbuffer KeyboardEvent 5}
    (htouch : ∀ t k, touch t k = { k with events := Function.update k.events t (f (k.events t)) })
    {turns i : Nat} {k k' : Kernel} {ns : List (Nat × Nat)} {c : Nat} (hq : k.sched.queue.Holds ns c)
    (hd : (ns.map Prod.snd).Nodup) (h : wakeLoop touch turns k (TaskList.addr ns i) = .ok k') (t : Nat) :
    (k'.events t = if t ∈ (ns.drop i).map Prod.snd then f (k.events t) else k.events t) ∧
      (t ∈ (ns.drop i).map Prod.snd → ¬Asleep k'.sched t) := by
  have hend : TaskList.addr ns i = none → (ns.drop i).map Prod.snd = [] := by
    intro hnode
    rw [List.drop_eq_nil_of_le (TaskList.addr_eq_none.mp hnode), List.map_nil]
  induction turns generalizing k i with
  | zero =>
    cases hnode : TaskList.addr ns i with
    | none =>
      rw [hnode] at h
      cases h
      rw [hend hnode, if_neg List.not_mem_nil]
      exact ⟨rfl, fun ht => absurd ht List.not_mem_nil⟩
    | some node =>
      rw [hnode] at h
      cases h
  | succ turns ih =>
    cases hnode : TaskList.addr ns i with
    | none =>
      rw [hnode] at h
      cases h
      rw [hend hnode, if_neg List.not_mem_nil]
      exact ⟨rfl, fun ht => absurd ht List.not_mem_nil⟩
    | some node =>
      rw [hnode] at h
      obtain ⟨u, hu⟩ := TaskList.addr_eq_some.mp hnode
      obtain ⟨n, hn, hnt, hnext, _⟩ := hq.node i node u hu
      obtain ⟨current, hcurrent, h⟩ := Except.bind_eq_ok.mp h
      obtain ⟨task, htask, h⟩ := Except.bind_eq_ok.mp h
      obtain rfl := Option.some.inj (hn.symm.trans (CellStore.read_some_ok.mp hcurrent))
      have ht := CellStore.read_some_ok.mp htask
      rw [hnt] at ht h
      simp only [htouch, hnext] at h
      have hend' : TaskList.addr ns (i + 1) = none → (ns.drop (i + 1)).map Prod.snd = [] := by
        intro hnode
        rw [List.drop_eq_nil_of_le (TaskList.addr_eq_none.mp hnode), List.map_nil]
      have hevents : ∀ u' r, ∃ events, touch u' r = { r with events } := fun _ r => ⟨_, htouch _ r⟩
      -- the rest of the walk starts with the buffer of this task written and the task awake
      have hrest : (k'.events t = if t ∈ (ns.drop (i + 1)).map Prod.snd then
          f (Function.update k.events u (f (k.events u)) t)
          else Function.update k.events u (f (k.events u)) t) ∧
          (t ∈ (ns.drop (i + 1)).map Prod.snd → ¬Asleep k'.sched t) ∧ ¬Asleep k'.sched u := by
        split at h
        next hwait =>
          rw [CellStore.modify_live _ ht, Except.ok_bind] at h
          obtain ⟨hwritten, hawake⟩ := ih (k := { k with
            sched := { k.sched with tasks := k.sched.tasks.adjust u fun t => { t with status := .running } }
            events := Function.update k.events u (f (k.events u)) }) hq h hend'
          refine ⟨hwritten, hawake, fun hsleep => ?_⟩
          obtain ⟨other, ho, hstatus⟩ := (wakeLoop_woken hevents h).2.asleep hsleep
          obtain rfl := Option.some.inj (ho.symm.trans (CellStore.adjust_cell_self _ ht))
          cases hstatus
        next hwait =>
          obtain ⟨hwritten, hawake⟩ :=
            ih (k := { k with events := Function.update k.events u (f (k.events u)) }) hq h hend'
          refine ⟨hwritten, hawake, fun hsleep => ?_⟩
          obtain ⟨other, ho, hstatus⟩ := (wakeLoop_woken hevents h).2.asleep hsleep
          obtain rfl := Option.some.inj (ho.symm.trans ht)
          exact hwait hstatus
      obtain ⟨hi, hget⟩ := List.getElem?_eq_some_iff.mp hu
      have hdrop : (ns.drop i).map Prod.snd = u :: (ns.drop (i + 1)).map Prod.snd := by
        rw [List.drop_eq_getElem_cons hi, hget]
        rfl
      have hout : u ∉ (ns.drop (i + 1)).map Prod.snd := by
        have hnodup := hd.sublist ((List.drop_sublist i ns).map Prod.snd)
        rw [hdrop] at hnodup
        exact (List.nodup_cons.mp hnodup).1
      obtain ⟨hwritten, hawake, hself⟩ := hrest
      rw [hwritten, hdrop]
      by_cases htu : t = u
      · subst htu
        rw [if_neg hout, Function.update_self, if_pos List.mem_cons_self]
        exact ⟨rfl, fun _ => hself⟩
      · rw [Function.update_of_ne htu]
        simp only [List.mem_cons, htu, false_or]
        exact ⟨trivial, hawake⟩

/-- `wake_io` writes the event to the buffer of each queued task, and no queued task sleeps then. -/
theorem wakeIo_reaches {k k' : Kernel} {ns : List (Nat × Nat)} {c : Nat} (h : Coherent k.sched ns c)
    {kbEvent : KeyboardEvent} (hs : k.wakeIo kbEvent = .ok k') {t : Nat} (ht : t ∈ ns.map Prod.snd) :
    k'.events t = (k.events t).write kbEvent ∧ ¬Asleep k'.sched t := by
  unfold wakeIo at hs
  rw [h.queue.front] at hs
  obtain ⟨hwritten, hawake⟩ :=
    wakeLoop_reaches (f := fun r => r.write kbEvent) (fun _ _ => rfl) h.queue h.distinct hs t
  rw [List.drop_zero] at hwritten hawake
  rw [if_pos ht] at hwritten
  exact ⟨hwritten, hawake ht⟩

theorem wakeNet_events {k k' : Kernel} {ns : List (Nat × Nat)} {c : Nat} (h : Coherent k.sched ns c)
    (hs : k.wakeNet = .ok k') (t : Nat) : k'.events t = k.events t := by
  unfold wakeNet at hs
  rw [h.queue.front] at hs
  obtain ⟨hsame, _⟩ := wakeLoop_reaches (f := id) (fun u k => by rw [id, Function.update_eq_self]) h.queue
    h.distinct hs t
  rw [hsame]
  split
  next => rfl
  next => rfl

/-- In these events the current task may start to wait. -/
def Event.waits : Event → Prop
  | .awaitIo _ | .futexWait _ _ _ _ | .futexTurn _ _ _ => True
  | _ => False

/-- What an event other than `wake_io` leaves as it was: the events of the queued tasks, and whether
they sleep, but for the current one. -/
structure Passes (k : Kernel) (ns : List (Nat × Nat)) (e : Event) (k' : Kernel) (t : Nat) : Prop where
  queued : t ∈ ns.map Prod.snd
  events : k'.events t = k.events t
  asleep : Asleep k'.sched t → Asleep k.sched t ∨ k.sched.currentTask = some t ∧ e.waits

/-- A task that an event adds. -/
structure Adds (k : Kernel) (e : Event) (k' : Kernel) (t : Nat) : Prop where
  isAdd : ∃ new, e = .addTask new
  next : t = k.sched.tasks.next
  events : k'.events t = { k.events t with head := 0, tail := 0 }

theorem Enters.asleep {k : Kernel} {e : Event} {regs : Registers} {s : Scheduler} {t : Nat}
    (h : Enters hw k e regs s) (hs : Asleep s t) :
    Asleep k.sched t ∨ k.sched.currentTask = some t ∧ e.waits := by
  cases h with
  | timer regs => exact Or.inl hs
  | yield regs => exact Or.inl hs
  | sleep ms regs _ => exact Or.inl (slept_asleep hs)
  | @awaitIo u regs hc =>
    by_cases hu : t = u
    · exact Or.inr ⟨hu ▸ hc, trivial⟩
    · exact Or.inl (awaited_asleep hs hu)
  | @futexTurn u task pointer regs hc =>
    by_cases hu : t = u
    · exact Or.inr ⟨hu ▸ hc, trivial⟩
    · exact Or.inl (awaited_asleep hs hu)

theorem step_passes {k k' : Kernel} {ns : List (Nat × Nat)} {c : Nat} {e : Event}
    (h : Coherent k.sched ns c) (hkill : ∀ regs, e = .kill regs → k.sched.currentTask ≠ k.sched.idleTask)
    (hio : ∀ kbEvent, e ≠ .wakeIo kbEvent) (hs : k.step hw fuel e = .ok k') :
    k.sched.tasks.next ≤ k'.sched.tasks.next ∧ ∃ ns' c', Coherent k'.sched ns' c' ∧
      (∀ t ∈ ns'.map Prod.snd, Passes k ns e k' t ∨ Adds k e k' t) ∧
      ((∀ t, k.sched.currentTask = some t → ¬Asleep k.sched t) →
        ∀ t, k'.sched.currentTask = some t → ¬Asleep k'.sched t) := by
  cases step_effect h hkill hs with
  | addTask new a c' hcoh hsched hframe =>
    have hcurrent : k'.sched.currentTask = k.sched.currentTask := by
      rw [hsched]
      rfl
    have hold : ∀ t, t ≠ k.sched.tasks.next → Asleep k'.sched t → Asleep k.sched t := by
      intro t hne hsleep
      obtain ⟨other, ho, hstatus⟩ := hsleep
      rw [hsched] at ho
      change (k.sched.tasks.alloc _).cell t = some other at ho
      rw [CellStore.alloc_cell, if_neg hne] at ho
      exact ⟨other, ho, hstatus⟩
    refine ⟨?_, _, c', hcoh, fun t ht => ?_, fun hawake t hc => ?_⟩
    · rw [hsched]
      exact Nat.le_succ _
    · obtain ⟨s, hadd, hs⟩ := Except.bind_eq_ok.mp hs
      obtain rfl := Except.ok.inj hs
      rcases List.mem_cons.mp ht with rfl | ht
      · exact Or.inr ⟨⟨new, rfl⟩, rfl, Function.update_self _ _ _⟩
      · obtain ⟨p, hp, rfl⟩ := List.mem_map.mp ht
        obtain ⟨task, hcell⟩ := h.queued p hp
        have hne : p.2 ≠ k.sched.tasks.next := Nat.ne_of_lt (CellStore.lt_next hcell)
        exact Or.inl ⟨ht, Function.update_of_ne hne _ _, fun hsleep => Or.inl (hold p.2 hne hsleep)⟩
    · rw [hcurrent] at hc
      obtain ⟨u, task, hu, hcell⟩ := h.current_task
      obtain rfl := Option.some.inj (hc.symm.trans hu)
      exact fun hsleep => hawake t hc (hold t (Nat.ne_of_lt (CellStore.lt_next hcell)) hsleep)
  | wake which wakes woken frame =>
    refine ⟨woken.next.ge, ns, c, woken.coherent h, fun t ht => ?_, fun hawake t hc hsleep => ?_⟩
    · refine Or.inl ⟨ht, ?_, fun hsleep => Or.inl (woken.asleep hsleep)⟩
      cases wakes with
      | wakeIo kbEvent => exact absurd rfl (hio kbEvent)
      | wakeNet => exact wakeNet_events h hs t
      | futexWake pointer =>
        obtain ⟨hk, _⟩ := wakeFutexLoop_woken hs
        rw [hk]
    · rw [woken.frame] at hc
      exact hawake t hc (woken.asleep hsleep)
  | switch regs context s enters before switched frame =>
    obtain ⟨c', hcoh⟩ := switched.coherent before.toStocked before.distinct
    refine ⟨?_, ns, c', hcoh, fun t ht => ?_, fun _ => switched.runs.awake⟩
    · rw [switched.next]
      cases enters <;> exact le_refl _
    · refine Or.inl ⟨ht, ?_, fun hsleep => enters.asleep (switched.asleep hsleep)⟩
      rw [frame]
  | wait t pointer value regs context current before switched list frame =>
    obtain ⟨c', hcoh⟩ := switched.coherent before.toStocked before.distinct
    refine ⟨switched.next.ge, ns, c', hcoh, fun u hu => ?_, fun _ => switched.runs.awake⟩
    refine Or.inl ⟨hu, ?_, fun hsleep => ?_⟩
    · rw [frame]
    · by_cases hut : u = t
      · exact Or.inr ⟨hut ▸ current, trivial⟩
      · exact Or.inl (awaited_asleep (switched.asleep hsleep) hut)
  | again pointer value expected regs unequal =>
    exact ⟨le_refl _, ns, c, h, fun t ht => Or.inl ⟨ht, rfl, Or.inl⟩, id⟩
  | kill t task q s regs context busy current live switched after frame =>
    obtain ⟨c', hcoh⟩ := after
    rw [← show k'.sched = s.deleted t task by rw [frame]] at hcoh
    have hsched : k'.sched = s.deleted t task := by rw [frame]
    refine ⟨?_, _, c', hcoh, fun u hu => ?_, fun _ u hc hsleep => ?_⟩
    · rw [hsched]
      exact switched.next.ge
    · refine Or.inl ⟨?_, ?_, fun hsleep => Or.inl ?_⟩
      · exact ((List.eraseIdx_sublist ns c).map Prod.snd).subset hu
      · rw [frame]
      · rw [hsched] at hsleep
        exact switched.asleep (deleted_asleep hsleep)
    · rw [hsched] at hc hsleep
      exact switched.runs.awake u hc (deleted_asleep hsleep)
  | tcbSet pointer => exact ⟨le_refl _, ns, c, h, fun t ht => Or.inl ⟨ht, rfl, Or.inl⟩, id⟩

end Kernel

end UmbraOS
