import UmbraOS.E1000
import UmbraOS.Runs
import UmbraOS.Scheduler

namespace UmbraOS

/-- The points of `packet_handler` between which an interrupt can come: the two tests of
`block_on`, the two steps of `await_io`, and the steps behind `block_on`. -/
inductive TaskPoint
  | testFirst
  | testLoop
  | setWaiting
  | yield
  | acquire
  | readCache
  | release
deriving DecidableEq

/-- The task that runs `packet_handler`, with what it shares with the interrupt handlers.
`pending` are the packets of the card that the handler has not seen, `onCpu` tells whether the
task is the one that runs, and `interrupts` is its interrupt flag. -/
structure PacketTask where
  cache : Ringbuffer Socket.Packet 64
  pending : List Socket.Packet
  status : Status
  point : TaskPoint
  onCpu : Bool
  interrupts : Bool

/-- `select` and `preempt` are what `schedule` does to this task, `wakeIo` is a keyboard
interrupt. -/
inductive PacketTaskEvent
  | arrival (packet : Socket.Packet)
  | netInterrupt
  | wakeIo
  | select
  | preempt
  | task

namespace PacketTask

def emptyCache : Ringbuffer Socket.Packet 64 := ⟨fun _ => ⟨fun _ => 0#8, 0⟩, 0, 0⟩

/-- `add_task` of the new task, while the card may already have received packets. -/
def create (cache : Ringbuffer Socket.Packet 64) (pending : List Socket.Packet) : PacketTask :=
  ⟨cache, pending, .ready, .testFirst, false, true⟩

/-- `wake_net`, and `wake_io` without its keyboard event. -/
def wakeNet (t : PacketTask) : PacketTask :=
  if t.status = .waitingIo then { t with status := .running } else t

def Short (packet : Socket.Packet) : Prop := packet.length ≤ Socket.maxEthernetFrameSize

instance (packet : Socket.Packet) : Decidable (Short packet) := inferInstanceAs (Decidable (_ ≤ _))

/-- What `E1000::handler` does with one packet. -/
def enqueue (t : PacketTask) (packet : Socket.Packet) : PacketTask :=
  if Short packet then wakeNet { t with cache := t.cache.write packet } else t

/-- An interrupt can be taken by this task only while its flag is set. -/
def interruptible (t : PacketTask) : Bool := !t.onCpu || t.interrupts

def netInterrupt (t : PacketTask) : PacketTask :=
  if t.interruptible then { t.pending.foldl enqueue t with pending := [] } else t

/-- The next step of the task. -/
def task (t : PacketTask) : PacketTask :=
  if t.onCpu then
    match t.point with
    | .testFirst => { t with point := if t.cache.isEmpty then .testLoop else .acquire }
    | .testLoop => { t with point := if t.cache.isEmpty then .setWaiting else .acquire }
    | .setWaiting => { t with status := .waitingIo, point := .yield }
    | .yield => { t with onCpu := false, point := .testLoop }
    | .acquire => { t with interrupts := false, point := .readCache }
    | .readCache => { t with cache := t.cache.read.2, point := .release }
    | .release => { t with interrupts := true, point := .testFirst }
  else t

def step (t : PacketTask) : PacketTaskEvent → PacketTask
  | .arrival packet => { t with pending := t.pending ++ [packet] }
  | .netInterrupt => t.netInterrupt
  | .wakeIo => if t.interruptible then t.wakeNet else t
  | .select =>
    if t.status = .ready ∨ t.status = .running then { t with status := .running, onCpu := true }
    else t
  | .preempt => if t.interrupts then { t with onCpu := false } else t
  | .task => t.task

/-- The task waits although there is a packet, and no interrupt will come to wake it. -/
def Lost (t : PacketTask) : Prop :=
  t.cache.isEmpty = false ∧ t.status = .waitingIo ∧ ∀ packet ∈ t.pending, ¬Short packet

/-- No packet is enqueued between a test that found the cache empty and the write of the
status. -/
def Meets (t : PacketTask) : PacketTaskEvent → Prop
  | .netInterrupt => t.point = .setWaiting → ∀ packet ∈ t.pending, ¬Short packet
  | _ => True

/-- A task that waits, or is about to, has found the cache empty, and nothing came since. -/
structure Waits (t : PacketTask) : Prop where
  waiting : t.status = .waitingIo → t.cache.isEmpty = true
  about : t.point = .setWaiting → t.cache.isEmpty = true

variable {t : PacketTask}

theorem wakeNet_status (t : PacketTask) : t.wakeNet.status ≠ .waitingIo := by
  unfold wakeNet
  split
  next => intro h; cases h
  next hne => exact hne

theorem wakeNet_same (t : PacketTask) :
    t.wakeNet.cache = t.cache ∧ t.wakeNet.point = t.point := by
  unfold wakeNet
  split
  next => exact ⟨rfl, rfl⟩
  next => exact ⟨rfl, rfl⟩

theorem enqueue_long {packet : Socket.Packet} (h : ¬Short packet) : t.enqueue packet = t := by
  rw [enqueue, if_neg h]

theorem enqueue_status {packet : Socket.Packet} (h : Short packet ∨ t.status ≠ .waitingIo) :
    (t.enqueue packet).status ≠ .waitingIo := by
  by_cases hs : Short packet
  · rw [enqueue, if_pos hs]
    exact wakeNet_status _
  · rw [enqueue_long hs]
    exact h.resolve_left hs

theorem enqueueAll_long {packets : List Socket.Packet} (h : ∀ packet ∈ packets, ¬Short packet) :
    packets.foldl enqueue t = t := by
  induction packets with
  | nil => rfl
  | cons packet packets ih =>
    rw [List.foldl_cons, enqueue_long (h packet List.mem_cons_self)]
    exact ih fun p hp => h p (List.mem_cons_of_mem _ hp)

/-- A packet that is enqueued leaves no task waiting. -/
theorem enqueueAll_status {packets : List Socket.Packet}
    (h : (∃ packet ∈ packets, Short packet) ∨ t.status ≠ .waitingIo) :
    (packets.foldl enqueue t).status ≠ .waitingIo := by
  induction packets generalizing t with
  | nil =>
    rcases h with ⟨packet, hp, -⟩ | h
    · cases hp
    · exact h
  | cons packet packets ih =>
    rw [List.foldl_cons]
    apply ih
    rcases h with ⟨p, hp, hs⟩ | h
    · rcases List.mem_cons.mp hp with rfl | hp
      · exact Or.inr (enqueue_status (Or.inl hs))
      · exact Or.inl ⟨p, hp, hs⟩
    · exact Or.inr (enqueue_status (Or.inr h))

theorem enqueueAll_point (packets : List Socket.Packet) :
    (packets.foldl enqueue t).point = t.point := by
  induction packets generalizing t with
  | nil => rfl
  | cons packet packets ih =>
    rw [List.foldl_cons, ih, enqueue]
    split
    next => exact (wakeNet_same _).2
    next => rfl

theorem Waits.netInterrupt (hw : Waits t) (hm : t.Meets .netInterrupt) :
    Waits t.netInterrupt := by
  unfold PacketTask.netInterrupt
  split
  next =>
    by_cases hlong : ∀ packet ∈ t.pending, ¬Short packet
    · rw [enqueueAll_long hlong]
      exact ⟨hw.waiting, hw.about⟩
    · obtain ⟨packet, hp, hs⟩ : ∃ packet ∈ t.pending, Short packet := by
        simpa only [not_forall, not_not, exists_prop] using hlong
      have hstatus : (t.pending.foldl enqueue t).status ≠ .waitingIo :=
        enqueueAll_status (Or.inl ⟨packet, hp, hs⟩)
      refine ⟨fun h => absurd h hstatus, fun h => ?_⟩
      simp only [enqueueAll_point] at h
      exact absurd (hm h) hlong
  next => exact hw

theorem Waits.task (hw : Waits t) : Waits t.task := by
  unfold PacketTask.task
  split
  next =>
    split
    next =>
      refine ⟨hw.waiting, fun h => ?_⟩
      simp only at h
      split at h <;> cases h
    next =>
      refine ⟨hw.waiting, fun h => ?_⟩
      simp only at h ⊢
      split at h
      next hempty => exact hempty
      next => cases h
    next hpoint => exact ⟨fun _ => hw.about hpoint, fun h => by cases h⟩
    next => exact ⟨hw.waiting, fun h => by cases h⟩
    next => exact ⟨hw.waiting, fun h => by cases h⟩
    next =>
      refine ⟨fun h => ?_, fun h => by cases h⟩
      have hempty := hw.waiting h
      simp only [Ringbuffer.read, if_pos hempty]
      exact hempty
    next => exact ⟨hw.waiting, fun h => by cases h⟩
  next => exact hw

theorem Waits.step (hw : Waits t) {event : PacketTaskEvent} (hm : t.Meets event) :
    Waits (t.step event) := by
  unfold PacketTask.step
  cases event with
  | arrival packet => exact ⟨hw.waiting, hw.about⟩
  | netInterrupt => exact hw.netInterrupt hm
  | wakeIo =>
    obtain ⟨hcache, hpoint⟩ := wakeNet_same t
    simp only
    split
    next =>
      refine ⟨fun h => absurd h (wakeNet_status t), fun h => ?_⟩
      rw [hcache]
      exact hw.about (hpoint.symm.trans h)
    next => exact hw
  | select =>
    simp only
    split
    next => exact ⟨(fun h => by cases h), hw.about⟩
    next => exact hw
  | preempt =>
    simp only
    split
    next => exact ⟨hw.waiting, hw.about⟩
    next => exact hw
  | task => exact hw.task

/-- No wake-up is lost in a run in which no packet comes between the test of the cache and
the write of the status. -/
theorem wakeup_not_lost {cache : Ringbuffer Socket.Packet 64} {pending : List Socket.Packet}
    {events : List PacketTaskEvent} (hm : StepsMeet step Meets (create cache pending) events) :
    ∀ done, done <+: events → ¬Lost (done.foldl step (create cache pending)) := by
  have hstart : Waits (create cache pending) := ⟨(fun h => by cases h), fun h => by cases h⟩
  have hkeep : ∀ t event, Waits t → Meets t event → Waits (step t event) :=
    fun _ _ hw hmeets => hw.step hmeets
  intro done hdone hlost
  obtain ⟨hsome, hwaiting, -⟩ := hlost
  have hw := (hm.of_prefix hdone).invariant hkeep hstart
  rw [hw.waiting hwaiting] at hsome
  cases hsome

/-- A packet that is there before the task waits. -/
theorem earlyPacket_not_lost : ¬Lost ([PacketTaskEvent.arrival ⟨fun _ => 0#8, 60⟩, .netInterrupt,
    .select, .task, .task, .task, .task].foldl step (create emptyCache [])) := by
  have hmeets : StepsMeet step Meets (create emptyCache []) [.arrival ⟨fun _ => 0#8, 60⟩,
      .netInterrupt, .select, .task, .task, .task, .task] :=
    And.intro trivial (And.intro (fun h => by cases h) (And.intro trivial
      (And.intro trivial (And.intro trivial (And.intro trivial (And.intro trivial trivial))))))
  exact wakeup_not_lost hmeets _ (List.prefix_refl _)

/-- A packet that comes between the test of the cache and the write of the status. -/
theorem latePacket_lost : Lost ([PacketTaskEvent.select, .task, .task,
    .arrival ⟨fun _ => 0#8, 60⟩, .netInterrupt, .task, .task].foldl step (create emptyCache [])) :=
  ⟨by decide, by decide, fun _ h => by cases h⟩

end PacketTask

end UmbraOS
