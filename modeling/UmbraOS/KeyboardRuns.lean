import UmbraOS.KeyboardReads
import UmbraOS.TaskListRing

namespace UmbraOS

namespace KernelKeys

open Scheduler Listener

variable {hw : Platform} {fuel : Nat} {s s' : KernelKeys}

/-- A task is in the queue. -/
def Listed (s : KernelKeys) (t : Nat) : Prop :=
  ∃ ns, s.kernel.sched.queue.reached = .ok ns ∧ t ∈ ns.map Prod.snd

/-- The events passed to `wake_io` since a task was added. -/
def heard (s : KernelKeys) (t : Nat) : List KeyboardEvent := s.passed.drop (s.listeners t).since

structure Hears (s : KernelKeys) (t : Nat) : Prop where
  since : (s.listeners t).since ≤ s.passed.length
  listens : Listens (s.kernel.events t) (s.heard t) (historyOf s.printed t) (Asleep s.kernel.sched t)
    (s.listeners t)

/-- No event for a task was lost. -/
def Complete (s : KernelKeys) (t : Nat) : Prop :=
  (s.kernel.events t).Complete (s.heard t) ((s.listeners t).taken.map Prod.fst)

/-- The events passed on are those of the bytes received, and every task in the queue hears them. -/
structure Heard (s : KernelKeys) : Prop where
  passed : s.passed = Keyboard.events Keyboard.zeroed s.received
  hears : ∀ t, s.Listed t → s.Hears t

/-- No buffer is full when an event is written to it. -/
def HasRoom (s : KernelKeys) : KeyAction → Prop
  | .key scancode => (s.keyboard.handler scancode).1 = none ∨
      ∀ t, s.Listed t → ¬(s.kernel.events t).Full
  | _ => True

/-- What holds between two actions. -/
structure Sound (s : KernelKeys) : Prop extends Heard s where
  coherent : ∃ ns c, Coherent s.kernel.sched ns c
  awake : ∀ t, s.kernel.sched.currentTask = some t → ¬Asleep s.kernel.sched t
  known : ∀ p ∈ s.printed, p.1 < s.kernel.sched.tasks.next
  keyboard : s.keyboard = Keyboard.zeroed.after s.received

theorem listed_iff {ns : List (Nat × Nat)} {c : Nat} (h : Coherent s.kernel.sched ns c) (t : Nat) :
    s.Listed t ↔ t ∈ ns.map Prod.snd := by
  have hreached := h.queue.reached
  constructor
  · rintro ⟨ns', hr, ht⟩
    obtain rfl := Except.ok.inj (hr.symm.trans hreached)
    exact ht
  · intro ht
    exact ⟨ns, hreached, ht⟩

theorem init_sound (idle : NewTask) : Sound (init idle) where
  passed := rfl
  hears t h := by
    rw [listed_iff (init_coherent idle)] at h
    cases h
  coherent := ⟨[], 0, init_coherent idle⟩
  awake t hc hsleep := by
    obtain ⟨task, ht, hstatus⟩ := hsleep
    obtain rfl := Option.some.inj hc
    obtain rfl := Option.some.inj ht
    cases hstatus
  known p hp := by cases hp
  keyboard := rfl

/-- A step in which only the current task does something of its own. -/
structure Own (s s' : KernelKeys) (t : Nat) : Prop where
  sched : s'.kernel.sched = s.kernel.sched
  keyboard : s'.keyboard = s.keyboard
  received : s'.received = s.received
  passed : s'.passed = s.passed
  events : ∀ u, u ≠ t → s'.kernel.events u = s.kernel.events u
  listeners : ∀ u, u ≠ t → s'.listeners u = s.listeners u
  printed : ∀ u, u ≠ t → historyOf s'.printed u = historyOf s.printed u
  known : ∀ p ∈ s'.printed, p ∈ s.printed ∨ p.1 = t

theorem Own.hears {t u : Nat} (h : Own s s' t) (hu : u ≠ t) (hs : s.Hears u) : s'.Hears u := by
  refine ⟨?_, ?_⟩
  · rw [h.passed, h.listeners u hu]
    exact hs.since
  · unfold heard
    rw [h.passed, h.listeners u hu, h.events u hu, h.printed u hu, h.sched]
    exact hs.listens

theorem Own.complete {t u : Nat} (h : Own s s' t) (hu : u ≠ t) (hs : s.Complete u) : s'.Complete u := by
  unfold Complete heard
  rw [h.passed, h.listeners u hu, h.events u hu]
  exact hs

theorem Sound.own (h : Sound s) {t : Nat} (hc : s.kernel.sched.currentTask = some t) (ho : Own s s' t)
    (hself : s.Hears t → s'.Hears t ∧ (s.Complete t → s'.Complete t)) :
    Sound s' ∧ ((∀ u, s.Listed u → s.Complete u) → ∀ u, s'.Listed u → s'.Complete u) := by
  have hlisted : ∀ u, s'.Listed u → s.Listed u := by
    unfold Listed
    rw [ho.sched]
    exact fun _ hu => hu
  refine ⟨⟨⟨?_, fun u hu => ?_⟩, ?_, ?_, fun p hp => ?_, ?_⟩, fun hs u hu => ?_⟩
  · rw [ho.passed, ho.received]
    exact h.passed
  · by_cases hut : u = t
    · subst hut
      exact (hself (h.hears u (hlisted u hu))).1
    · exact ho.hears hut (h.hears u (hlisted u hu))
  · rw [ho.sched]
    exact h.coherent
  · rw [ho.sched]
    exact h.awake
  · rw [ho.sched]
    rcases ho.known p hp with hp | hp
    · exact h.known p hp
    · obtain ⟨ns, c, hcoh⟩ := h.coherent
      obtain ⟨u, task, hu, ht⟩ := hcoh.current_task
      obtain rfl := Option.some.inj (hc.symm.trans hu)
      rw [hp]
      exact CellStore.lt_next ht
  · rw [ho.keyboard, ho.received]
    exact h.keyboard
  · by_cases hut : u = t
    · subst hut
      exact (hself (h.hears u (hlisted u hu))).2 (hs u (hlisted u hu))
    · exact ho.complete hut (hs u (hlisted u hu))

theorem setListener_own (s : KernelKeys) (t : Nat) (l : Listener) : Own s (s.setListener t l) t :=
  ⟨rfl, rfl, rfl, rfl, fun _ _ => rfl, fun _ hu => Function.update_of_ne hu _ _, fun _ _ => rfl,
    fun _ => Or.inl⟩

/-- The current task takes an event from its buffer, with what it has printed then. -/
def takes (s : KernelKeys) (t : Nat) (rest : Ringbuffer KeyboardEvent 5) (printed : List (Nat × Byte))
    (l : Listener) : KernelKeys :=
  { (s.setEvents t rest).setListener t l with printed }

theorem takes_own {t : Nat} {rest : Ringbuffer KeyboardEvent 5} {printed : List (Nat × Byte)} {l : Listener}
    (hprinted : printed = s.printed ∨ ∃ b, printed = s.printed ++ [(t, b)]) :
    Own s (s.takes t rest printed l) t := by
  refine ⟨rfl, rfl, rfl, rfl, fun _ hu => Function.update_of_ne hu _ _,
    fun _ hu => Function.update_of_ne hu _ _, fun u hu => ?_, fun p hp => ?_⟩
  · rcases hprinted with rfl | ⟨b, rfl⟩
    · rfl
    · exact historyOf_snoc_other hu
  · rcases hprinted with rfl | ⟨b, rfl⟩
    · exact Or.inl hp
    · rcases List.mem_append.mp hp with hp | hp
      · exact Or.inl hp
      · rw [List.mem_singleton.mp hp]
        exact Or.inr rfl

/-- A task that takes an event keeps to the order, and loses nothing by it. -/
theorem Hears.takes {t : Nat} {rest : Ringbuffer KeyboardEvent 5} {printed : List (Nat × Byte)}
    {l : Listener} {e : KeyboardEvent} {byRead : Bool} (h : s.Hears t)
    (hread : (s.kernel.events t).read = (some e, rest)) (hsince : l.since = (s.listeners t).since)
    (htaken : l.taken = (s.listeners t).taken ++ [(e, byRead)])
    (hl : Listens rest (s.heard t) (historyOf printed t) (Asleep s.kernel.sched t) l) :
    (s.takes t rest printed l).Hears t ∧ (s.Complete t → (s.takes t rest printed l).Complete t) := by
  have hlistener : (s.takes t rest printed l).listeners t = l := Function.update_self _ _ _
  have hevents : (s.takes t rest printed l).kernel.events t = rest := Function.update_self _ _ _
  have hheard : (s.takes t rest printed l).heard t = s.heard t := by
    unfold heard
    rw [hlistener, hsince]
    rfl
  refine ⟨⟨?_, ?_⟩, fun hc => ?_⟩
  · rw [hlistener, hsince]
    exact h.since
  · rw [hlistener, hevents, hheard]
    exact hl
  · unfold Complete
    rw [hlistener, hevents, hheard, htaken, List.map_append]
    exact (h.listens.order.read hread).2.trans hc

/-- What an action keeps: nothing is lost in it if and only if it meets the condition. -/
def Keeps (s s' : KernelKeys) (room : Prop) : Prop :=
  Sound s' ∧ ((∀ u, s.Listed u → s.Complete u) → ((∀ u, s'.Listed u → s'.Complete u) ↔ room))

theorem Sound.keeps (h : Sound s) {t : Nat} (hc : s.kernel.sched.currentTask = some t) (ho : Own s s' t)
    (hself : s.Hears t → s'.Hears t ∧ (s.Complete t → s'.Complete t)) : Keeps s s' True := by
  obtain ⟨hsound, hcomplete⟩ := h.own hc ho hself
  exact ⟨hsound, fun hs => iff_of_true (hcomplete hs) trivial⟩

theorem Sound.getKbEvent (h : Sound s) {t : Nat} (hc : s.kernel.sched.currentTask = some t)
    (hout : (s.listeners t).reading = none) : Keeps s (s.sysGetKbEvent t).2 True := by
  unfold sysGetKbEvent
  cases hread : (s.kernel.events t).read with
  | mk item rest =>
  cases item with
  | none => exact ⟨h, fun hs => iff_of_true hs trivial⟩
  | some e =>
    refine h.keeps hc (takes_own (Or.inl rfl)) fun ht => ?_
    exact ht.takes hread rfl rfl (ht.listens.getEvent hread hout)

theorem Sound.readEvent (h : Sound s) {t : Nat} (hc : s.kernel.sched.currentTask = some t) {r : TtyRead}
    (hr : (s.listeners t).reading = some r) (hroom : r.text.length ≠ r.length)
    (hs : s.readEvent t r = .ok s') : Keeps s s' True := by
  have hawake := h.awake t hc
  unfold KernelKeys.readEvent at hs
  cases hread : (s.kernel.events t).read with
  | mk item rest =>
  rw [hread] at hs
  cases item with
  | none => cases hs
  | some e =>
    simp only at hs
    cases he : e.pressed with
    | false =>
      rw [he] at hs
      cases hs
      refine h.keeps hc (takes_own (Or.inl rfl)) fun ht => ?_
      exact ht.takes hread rfl rfl (ht.listens.skip hread he hawake)
    | true =>
      rw [he] at hs
      simp only [Bool.not_true, Bool.false_eq_true, if_false] at hs
      split at hs
      next hline =>
        cases hs
        refine h.keeps hc (takes_own (Or.inr ⟨e.ascii, rfl⟩)) fun ht => ?_
        refine ht.takes hread rfl rfl ?_
        rw [historyOf_snoc_self]
        exact ht.listens.line hread hr hroom he hline
      next hline =>
        cases hs
        refine h.keeps hc (takes_own (Or.inr ⟨e.ascii, rfl⟩)) fun ht => ?_
        refine ht.takes hread rfl rfl ?_
        rw [historyOf_snoc_self]
        exact ht.listens.store hread hr hroom he hline hawake

/-- An event other than `wake_io`, in which a task waits inside of a read only while its buffer is
empty. -/
theorem Sound.passes (h : Sound s) {e : Kernel.Event} {k : Kernel} (hs : s.kernel.step hw fuel e = .ok k)
    (hkill : ∀ regs, e = .kill regs → s.kernel.sched.currentTask ≠ s.kernel.sched.idleTask)
    (hio : ∀ kbEvent, e ≠ .wakeIo kbEvent)
    (hwaits : e.waits → ∀ t, s.kernel.sched.currentTask = some t → (s.listeners t).reading ≠ none →
      (s.kernel.events t).isEmpty = true)
    {listeners : Nat → Listener}
    (hold : ∀ u, u ≠ s.kernel.sched.tasks.next → listeners u = s.listeners u)
    (hnew : (∃ new, e = .addTask new) →
      listeners s.kernel.sched.tasks.next = Listener.new s.passed.length) :
    Keeps s { s with kernel := k, listeners } True := by
  obtain ⟨ns, c, hcoh⟩ := h.coherent
  obtain ⟨hnext, ns', c', hcoh', hpasses, hawake⟩ := Kernel.step_passes hcoh hkill hio hs
  have hlisted : ∀ u, Listed { s with kernel := k, listeners } u → u ∈ ns'.map Prod.snd :=
    fun u => (listed_iff hcoh' u).mp
  have hsame : ∀ u, u ∈ ns.map Prod.snd → listeners u = s.listeners u := by
    intro u hu
    obtain ⟨p, hp, rfl⟩ := List.mem_map.mp hu
    obtain ⟨task, ht⟩ := hcoh.queued p hp
    exact hold p.2 (Nat.ne_of_lt (CellStore.lt_next ht))
  have hadded : ∀ u, Kernel.Adds s.kernel e k u → listeners u = Listener.new s.passed.length ∧
      historyOf s.printed u = [] := by
    intro u hadd
    obtain rfl := hadd.next
    exact ⟨hnew hadd.isAdd, historyOf_none fun p hp => Nat.ne_of_lt (h.known p hp)⟩
  have hnone : s.passed.drop s.passed.length = [] := List.drop_length
  refine ⟨⟨⟨h.passed, fun u hu => ?_⟩, ⟨ns', c', hcoh'⟩, hawake h.awake,
    fun p hp => lt_of_lt_of_le (h.known p hp) hnext, h.keyboard⟩,
    fun hcomplete => iff_of_true (fun u hu => ?_) trivial⟩
  · rcases hpasses u (hlisted u hu) with hpass | hadd
    · have hears := h.hears u ((listed_iff hcoh u).mpr hpass.queued)
      have hl := hsame u hpass.queued
      refine ⟨?_, ?_⟩
      · simp only [hl]
        exact hears.since
      · unfold heard
        simp only [hl, hpass.events]
        refine hears.listens.sleeps fun hreading hsleep => ?_
        rcases hpass.asleep hsleep with hsleep | ⟨hc, hwait⟩
        · exact Or.inl hsleep
        · exact Or.inr (hwaits hwait u hc hreading)
    · obtain ⟨hl, hprinted⟩ := hadded u hadd
      refine ⟨?_, ?_⟩
      · simp only [hl]
        exact le_refl _
      · unfold heard
        simp only [hl, hadd.events, hprinted]
        rw [show (new s.passed.length).since = s.passed.length from rfl, hnone]
        exact new_listens _ _
  · rcases hpasses u (hlisted u hu) with hpass | hadd
    · have hl := hsame u hpass.queued
      unfold Complete heard
      simp only [hl, hpass.events]
      exact hcomplete u ((listed_iff hcoh u).mpr hpass.queued)
    · obtain ⟨hl, _⟩ := hadded u hadd
      unfold Complete heard
      simp only [hl, hadd.events]
      rw [show (new s.passed.length).since = s.passed.length from rfl, hnone]
      exact (Ringbuffer.InOrder.start (show 1 < 5 by decide) (s.kernel.events u).data).2

theorem Sound.readTurn (h : Sound s) {t : Nat} (hc : s.kernel.sched.currentTask = some t) {r : TtyRead}
    (hr : (s.listeners t).reading = some r) {regs : Registers}
    (hs : s.readTurn hw fuel t r regs = .ok s') : Keeps s s' True := by
  unfold KernelKeys.readTurn at hs
  split at hs
  next hfull =>
    cases hs
    refine h.keeps hc (setListener_own _ _ _) fun ht => ?_
    have hlistener : (s.setListener t ((s.listeners t).returned r)).listeners t =
        (s.listeners t).returned r := Function.update_self _ _ _
    refine ⟨⟨?_, ?_⟩, fun hcomplete => ?_⟩
    · rw [hlistener]
      exact ht.since
    · unfold heard
      rw [hlistener]
      exact ht.listens.full hr hfull
    · unfold Complete heard
      rw [hlistener]
      exact hcomplete
  next hroom =>
    obtain ⟨⟨left, k⟩, hblock, hs⟩ := Except.bind_eq_ok.mp hs
    unfold Kernel.blockOn Kernel.blockTurn at hblock
    cases hempty : (s.kernel.events t).isEmpty with
    | false =>
      simp only [hempty, Bool.not_false, if_true] at hblock
      cases hblock
      exact h.readEvent hc hr hroom hs
    | true =>
      simp only [hempty, Bool.not_true, Bool.false_eq_true, if_false] at hblock
      obtain ⟨k', hawait, hblock⟩ := Except.bind_eq_ok.mp hblock
      cases hblock
      cases hs
      refine h.passes (e := .awaitIo regs) hawait (fun _ he => Kernel.Event.noConfusion he)
        (fun _ he => Kernel.Event.noConfusion he) (fun _ u hu _ => ?_) (fun _ _ => rfl) ?_
      · obtain rfl := Option.some.inj (hc.symm.trans hu)
        exact hempty
      · rintro ⟨new, he⟩
        cases he

/-- A keyboard interrupt. -/
theorem Sound.key (h : Sound s) {scancode : Byte} (hs : s.key scancode = .ok s') :
    Keeps s s' (HasRoom s (.key scancode)) := by
  unfold KernelKeys.key at hs
  unfold HasRoom
  have hevents := Keyboard.events_snoc Keyboard.zeroed s.received scancode
  rw [← h.passed, ← h.keyboard] at hevents
  have hafter := Keyboard.after_snoc Keyboard.zeroed s.received scancode
  rw [← h.keyboard] at hafter
  cases hhandler : s.keyboard.handler scancode with
  | mk event keyboard =>
  rw [hhandler] at hs hevents hafter
  obtain ⟨ns, c, hcoh⟩ := h.coherent
  cases event with
  | none =>
    cases hs
    refine ⟨⟨⟨?_, fun u hu => ⟨(h.hears u hu).since, (h.hears u hu).listens⟩⟩, h.coherent, h.awake,
      h.known, hafter.symm⟩, fun hcomplete => ?_⟩
    · exact (List.append_nil _).symm.trans hevents.symm
    · exact iff_of_true hcomplete (Or.inl (congrArg Prod.fst hhandler))
  | some e =>
    obtain ⟨k, hwake, hs⟩ := Except.bind_eq_ok.mp hs
    cases hs
    obtain ⟨⟨events, hk⟩, hwoken⟩ := Kernel.wakeIo_woken hwake
    have hcoh' := hwoken.coherent hcoh
    have hcurrent : k.sched.currentTask = s.kernel.sched.currentTask := by rw [hwoken.frame]
    have hreaches : ∀ u, u ∈ ns.map Prod.snd →
        k.events u = (s.kernel.events u).write e ∧ ¬Asleep k.sched u :=
      fun u hu => Kernel.wakeIo_reaches hcoh hwake hu
    have hheard : ∀ u, s.Hears u → (s.passed ++ [e]).drop (s.listeners u).since = s.heard u ++ [e] :=
      fun u hu => List.drop_append_of_le_length hu.since
    refine ⟨⟨⟨hevents.symm, fun u hu => ?_⟩, ⟨ns, c, hcoh'⟩, fun u hc hsleep => ?_, fun p hp => ?_,
      hafter.symm⟩, fun hcomplete => ?_⟩
    · rw [listed_iff hcoh'] at hu
      obtain ⟨hwritten, hawake⟩ := hreaches u hu
      have hears := h.hears u ((listed_iff hcoh u).mpr hu)
      refine ⟨?_, ?_⟩
      · simp only [List.length_append]
        exact Nat.le_add_right_of_le hears.since
      · unfold heard
        simp only [hwritten, hheard u hears]
        exact hears.listens.hear e hawake
    · rw [hcurrent] at hc
      exact h.awake u hc (hwoken.asleep hsleep)
    · exact lt_of_lt_of_eq (h.known p hp) hwoken.next.symm
    · -- each buffer loses an event exactly when it was full
      have hiff : ∀ u, u ∈ ns.map Prod.snd → ((k.events u).Complete (s.heard u ++ [e])
          ((s.listeners u).taken.map Prod.fst) ↔ ¬(s.kernel.events u).Full) := by
        intro u hu
        have hlisted := (listed_iff hcoh u).mpr hu
        rw [(hreaches u hu).1]
        exact Ringbuffer.complete_write_iff (h.hears u hlisted).listens.order (hcomplete u hlisted)
          (by decide) e
      constructor
      · intro hnew
        right
        intro u hu
        have hmem := (listed_iff hcoh u).mp hu
        have hcomp := hnew u ((listed_iff hcoh' u).mpr hmem)
        unfold Complete heard at hcomp
        simp only [hheard u (h.hears u hu)] at hcomp
        exact (hiff u hmem).mp hcomp
      · intro hroom u hu
        have hmem := (listed_iff hcoh' u).mp hu
        have hlisted := (listed_iff hcoh u).mpr hmem
        unfold Complete heard
        simp only [hheard u (h.hears u hlisted)]
        have hsome : (s.keyboard.handler scancode).1 ≠ none := by
          rw [hhandler]
          exact Option.some_ne_none e
        exact (hiff u hmem).mpr (hroom.resolve_left hsome u hlisted)

theorem Sound.kernelEvent (h : Sound s) {e : Kernel.Event} (hm : InTurn s (.kernel e))
    (hs : s.kernelEvent hw fuel e = .ok s') : Keeps s s' True := by
  obtain ⟨k, hstep, hs⟩ := Except.bind_eq_ok.mp hs
  have hkill : ∀ regs, e = .kill regs → s.kernel.sched.currentTask ≠ s.kernel.sched.idleTask := by
    rintro regs rfl
    exact hm.2
  have hio : ∀ kbEvent, e ≠ .wakeIo kbEvent := by
    rintro kbEvent rfl
    exact hm
  have hwaits : e.waits → ∀ t, s.kernel.sched.currentTask = some t → (s.listeners t).reading ≠ none →
      (s.kernel.events t).isEmpty = true := by
    intro hwait t hc hreading
    cases e with
    | awaitIo regs => exact absurd (hm t hc) hreading
    | futexWait pointer value expected regs => exact absurd (hm t hc) hreading
    | futexTurn task pointer regs => exact absurd (hm t hc) hreading
    | _ => exact hwait.elim
  cases e with
  | addTask new =>
    cases hs
    exact h.passes hstep hkill hio hwaits (fun u hu => Function.update_of_ne hu _ _)
      fun _ => Function.update_self _ _ _
  | _ =>
    cases hs
    exact h.passes hstep hkill hio hwaits (fun _ _ => rfl) fun ⟨_, he⟩ => Kernel.Event.noConfusion he

theorem Sound.read (h : Sound s) {t : Nat} (hc : s.kernel.sched.currentTask = some t)
    (hout : (s.listeners t).reading = none) (length : Nat) :
    Keeps s (s.setListener t { s.listeners t with reading := some ⟨length, []⟩ }) True := by
  refine h.keeps hc (setListener_own _ _ _) fun ht => ?_
  have hlistener : (s.setListener t { s.listeners t with reading := some ⟨length, []⟩ }).listeners t =
      { s.listeners t with reading := some ⟨length, []⟩ } := Function.update_self _ _ _
  refine ⟨⟨?_, ?_⟩, fun hcomplete => ?_⟩
  · rw [hlistener]
    exact ht.since
  · unfold heard
    rw [hlistener]
    exact ht.listens.start hout (h.awake t hc) length
  · unfold Complete heard
    rw [hlistener]
    exact hcomplete

theorem Sound.step (h : Sound s) {action : KeyAction} (hm : InTurn s action)
    (hs : s.step hw fuel action = .ok s') : Keeps s s' (HasRoom s action) := by
  obtain ⟨ns, c, hcoh⟩ := h.coherent
  obtain ⟨t, task, hc, ht⟩ := hcoh.current_task
  cases action with
  | key scancode => exact h.key hs
  | kernel e => exact h.kernelEvent hm hs
  | getKbEvent =>
    simp only [KernelKeys.step, hc] at hs
    cases hs
    exact h.getKbEvent hc (hm t hc)
  | read length =>
    simp only [KernelKeys.step, hc] at hs
    cases hs
    exact h.read hc (hm t hc) length
  | readTurn regs =>
    simp only [KernelKeys.step, hc] at hs
    cases hr : (s.listeners t).reading with
    | none =>
      rw [hr] at hs
      cases hs
      exact ⟨h, fun hcomplete => iff_of_true hcomplete trivial⟩
    | some r =>
      rw [hr] at hs
      exact h.readTurn hc hr hs

/-- In every run, with keys, interrupts and calls in any order: the tasks in the queue take the events of
the keys in the order of the bytes received, from when they were added; the reads of the terminal return
the characters typed, a line or a full buffer at a time, and print them; and no task sleeps in a read
with an event left for it. No event is lost exactly as long as no buffer is full when one comes. -/
theorem keys_reach_reads {idle : NewTask} {actions : List KeyAction}
    (hm : Ahead (step hw fuel) InTurn (init idle) actions) :
    (∀ done s, done <+: actions → run (step hw fuel) (init idle) done = .ok s → Heard s) ∧
      ((∀ done s, done <+: actions → run (step hw fuel) (init idle) done = .ok s →
          ∀ t, s.Listed t → s.Complete t) ↔
        Along (step hw fuel) (fun s action _ => HasRoom s action) (init idle) actions) := by
  have hkeep : ∀ s action s', Sound s → InTurn s action → step hw fuel s action = .ok s' →
      Sound s' ∧ ((∀ u, s.Listed u → s.Complete u) →
        ((∀ u, s'.Listed u → s'.Complete u) ↔ HasRoom s action)) :=
    fun s action s' h hturn hs => h.step hturn hs
  have hstart : ∀ u, Listed (init idle) u → Complete (init idle) u := by
    intro u hu
    rw [listed_iff (init_coherent idle)] at hu
    cases hu
  refine ⟨fun done s hdone hr => ?_, Ahead.always_iff hkeep (init_sound idle) hstart hm⟩
  have hsound : Sound s := (hm.of_prefix hdone).invariant
    (fun s action s' h hturn hs => (hkeep s action s' h hturn hs).1) (init_sound idle) hr
  exact hsound.toHeard

/-- A task reads a line while its keys are pressed and released. -/
def typing : List KeyAction :=
  [.kernel (.addTask plainTask), .kernel (.timer zeroRegisters), .read 3, .readTurn zeroRegisters,
    .key 0x1e#8, .kernel (.timer zeroRegisters), .readTurn zeroRegisters, .key 0x9e#8, .key 0x1c#8,
    .readTurn zeroRegisters, .readTurn zeroRegisters]

theorem typing_inTurn : Ahead (step ⟨id, 1, 0⟩ 4) InTurn (init plainTask) typing := by
  refine ⟨trivial, fun s₁ h₁ => ⟨trivial, fun s₂ h₂ => ⟨?_, fun s₃ h₃ => ⟨trivial, fun s₄ h₄ =>
    ⟨trivial, fun s₅ h₅ => ⟨trivial, fun s₆ h₆ => ⟨trivial, fun s₇ h₇ => ⟨trivial, fun s₈ h₈ =>
    ⟨trivial, fun s₉ h₉ => ⟨trivial, fun s₁₀ h₁₀ => ⟨trivial, fun s₁₁ h₁₁ => trivial⟩⟩⟩⟩⟩⟩⟩⟩⟩⟩⟩
  cases h₁
  cases h₂
  intro t ht
  cases ht
  rfl

theorem typing_heard : ∃ s, run (step ⟨id, 1, 0⟩ 4) (init plainTask) typing = .ok s ∧
    (s.listeners 1).texts.map TtyRead.text = [[0x61#8, 0x0a#8]] ∧ Heard s := by
  obtain ⟨s, hrun, htext⟩ : ∃ s, run (step ⟨id, 1, 0⟩ 4) (init plainTask) typing = .ok s ∧
      (s.listeners 1).texts.map TtyRead.text = [[0x61#8, 0x0a#8]] := ⟨_, rfl, by decide⟩
  exact ⟨s, hrun, htext, (keys_reach_reads typing_inTurn).1 typing s List.prefix_rfl hrun⟩

end KernelKeys

end UmbraOS
