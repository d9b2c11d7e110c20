import UmbraOS.SchedulerSelect

namespace UmbraOS

namespace Scheduler

/-- The selection ends, and with no task of the queue to run it ends with the idle task. -/
def Selects (hw : Platform) (s : Scheduler) (ns : List (Nat × Nat)) : Prop :=
  (∃ fuel s', s.select hw fuel = .ok s') ∧
  ((∀ p ∈ ns, ¬CanRun hw s (some p.2)) →
    ∀ fuel s', s.select hw fuel = .ok s' → s'.currentTask = s.idleTask)

/-- Two entries in a row, from the last one round to the first, are the same task. -/
def Repeats (ns : List (Nat × Nat)) : Prop :=
  ∃ i < ns.length, ns[i]?.map Prod.snd = ns[(i + 1) % ns.length]?.map Prod.snd

theorem repeats_iff {ns : List (Nat × Nat)} (hne : ns ≠ []) :
    Repeats ns ↔ ∃ i, taskAt ns i = taskAt ns (i + 1) := by
  have hpos : 0 < ns.length := List.length_pos_of_ne_nil hne
  have hmod : ∀ i, taskAt ns i = ns[i % ns.length]?.map Prod.snd := fun _ => rfl
  constructor
  · rintro ⟨i, hi, he⟩
    refine ⟨i, ?_⟩
    rw [hmod, hmod, Nat.mod_eq_of_lt hi]
    exact he
  · rintro ⟨i, he⟩
    refine ⟨i % ns.length, Nat.mod_lt _ hpos, ?_⟩
    rw [hmod, hmod] at he
    rw [he, Nat.mod_add_mod]

/-- The selection is the loop, begun at the task behind the cursor. -/
structure Begins (hw : Platform) (s s₁ : Scheduler) (ns : List (Nat × Nat)) (c : Nat) : Prop where
  select : ∀ fuel, s.select hw fuel = s₁.selectLoop hw fuel
  selecting : Selecting s₁ ns c
  first : s₁.currentTask = taskAt ns c
  idleTask : s₁.idleTask = s.idleTask
  canRun : ∀ p, CanRun hw s₁ p ↔ CanRun hw s p
  clock : ClockHolds hw s → ClockHolds hw s₁

theorem Queued.select_begins {s : Scheduler} {ns : List (Nat × Nat)} {c : Nat} (h : Queued s ns c)
    (hne : ns ≠ []) (hw : Platform) : ∃ s₁, Begins hw s s₁ ns ((c + 1) % ns.length) := by
  obtain ⟨a, t, ht⟩ := h.next_entry hne
  obtain ⟨hnext, hholds⟩ := h.queue.nextTask ht
  have hfirst : some t = taskAt ns ((c + 1) % ns.length) := by
    unfold taskAt
    rw [Nat.mod_mod, ht]
    rfl
  refine ⟨{ s with currentTask := some t, queue := { s.queue with current := some a } }, ?_,
    ⟨⟨hholds, h.queued, h.idle⟩, hne, Or.inl hfirst⟩, hfirst, rfl, fun _ => Iff.rfl, fun hc => hc⟩
  intro fuel
  unfold Scheduler.select Scheduler.advance
  rw [h.queue.isEmpty_eq, if_neg (by simpa using hne), hnext]
  rfl

/-- Any position of the queue lies ahead of the cursor. -/
theorem taskAt_ahead {ns : List (Nat × Nat)} {c : Nat} (hc : c < ns.length) (i : Nat) :
    ∃ d, ∀ k, taskAt ns (c + d + k) = taskAt ns (i + k) := by
  refine ⟨i % ns.length + (ns.length - c), fun k => ?_⟩
  have hsum : c + (i % ns.length + (ns.length - c)) + k = i % ns.length + k + ns.length := by omega
  rw [← taskAt_mod ns i k, hsum]
  unfold taskAt
  rw [Nat.add_mod_right]

theorem Begins.none {hw : Platform} {s s₁ : Scheduler} {ns : List (Nat × Nat)} {c : Nat}
    (h : Begins hw s s₁ ns c) (hn : ∀ p ∈ ns, ¬CanRun hw s (some p.2)) (i : Nat) :
    ¬CanRun hw s₁ (taskAt ns i) := by
  intro hr
  obtain ⟨t, task, ht, _⟩ := id hr
  obtain ⟨p, hp, rfl⟩ := taskAt_mem ht
  rw [h.canRun, ht] at hr
  exact hn p hp hr

theorem selects_of_canRun {hw : Platform} {s : Scheduler} {ns : List (Nat × Nat)} {c : Nat}
    (h : Queued s ns c) (hclock : ClockHolds hw s) {p : Nat × Nat} (hp : p ∈ ns)
    (hr : CanRun hw s (some p.2)) : Selects hw s ns := by
  have hne : ns ≠ [] := List.ne_nil_of_mem hp
  obtain ⟨s₁, hb⟩ := h.select_begins hne hw
  have hlt : (c + 1) % ns.length < ns.length := Nat.mod_lt _ (List.length_pos_of_ne_nil hne)
  obtain ⟨i, _, ht⟩ := taskAt_of_mem hp
  obtain ⟨d, hd⟩ := taskAt_ahead hlt i
  have hrun : CanRun hw s₁ (taskAt ns ((c + 1) % ns.length + d)) := by
    have hd0 : taskAt ns ((c + 1) % ns.length + d) = taskAt ns i := hd 0
    rw [hb.canRun, hd0, ht]
    exact hr
  obtain ⟨fuel, s', hs'⟩ := selectLoop_reaches d hb.selecting (fun _ => hb.clock hclock)
    (Or.inl hb.first) hrun
  exact ⟨⟨fuel, s', (hb.select fuel).trans hs'⟩, fun hn => absurd hr (hn p hp)⟩

theorem selects_of_repeats {hw : Platform} {s : Scheduler} {ns : List (Nat × Nat)} {c : Nat}
    (h : Queued s ns c) (hne : ns ≠ []) (hclock : ClockHolds hw s) (hi : CanRun hw s s.idleTask)
    (hrep : Repeats ns) : Selects hw s ns := by
  obtain ⟨s₁, hb⟩ := h.select_begins hne hw
  have hlt : (c + 1) % ns.length < ns.length := Nat.mod_lt _ (List.length_pos_of_ne_nil hne)
  obtain ⟨i, he⟩ := (repeats_iff hne).mp hrep
  obtain ⟨d, hd⟩ := taskAt_ahead hlt i
  have hidle : CanRun hw s₁ s₁.idleTask := by
    rw [hb.canRun, hb.idleTask]
    exact hi
  have hsame : taskAt ns ((c + 1) % ns.length + d) = taskAt ns ((c + 1) % ns.length + d + 1) :=
    (hd 0).trans (he.trans (hd 1).symm)
  obtain ⟨fuel, s', hs'⟩ := selectLoop_repeats d hb.selecting (hb.clock hclock) hidle hsame
  refine ⟨⟨fuel, s', (hb.select fuel).trans hs'⟩, fun hn fuel s' hs' => ?_⟩
  rw [hb.select] at hs'
  rw [← hb.idleTask]
  exact selectLoop_idle fuel hb.selecting (hb.clock hclock) (hb.none hn) hs'

theorem not_selects {hw : Platform} {s : Scheduler} {ns : List (Nat × Nat)} {c : Nat}
    (h : Queued s ns c) (hne : ns ≠ []) (hclock : ClockHolds hw s)
    (hn : ∀ p ∈ ns, ¬CanRun hw s (some p.2)) (hcase : ¬(CanRun hw s s.idleTask ∧ Repeats ns)) :
    ¬Selects hw s ns := by
  rintro ⟨⟨fuel, s', hs'⟩, _⟩
  obtain ⟨s₁, hb⟩ := h.select_begins hne hw
  have hstuck : ¬CanRun hw s₁ s₁.idleTask ∨ s₁.currentTask = taskAt ns ((c + 1) % ns.length) ∧
      ∀ i, taskAt ns i ≠ taskAt ns (i + 1) := by
    rw [hb.canRun, hb.idleTask]
    by_cases hi : CanRun hw s s.idleTask
    · refine Or.inr ⟨hb.first, fun i he => ?_⟩
      exact hcase ⟨hi, (repeats_iff hne).mpr ⟨i, he⟩⟩
    · exact Or.inl hi
  rw [hb.select, selectLoop_stuck fuel hb.selecting (hb.clock hclock) (hb.none hn) hstuck] at hs'
  cases hs'

/-- The selection does its work exactly when some task of the queue can run, or the idle task
can and two entries in a row are the same task. -/
theorem select_selects_iff {hw : Platform} {s : Scheduler} {ns : List (Nat × Nat)} {c : Nat}
    (h : Queued s ns c) (hne : ns ≠ []) (hclock : ClockHolds hw s) :
    Selects hw s ns ↔
      (∃ p ∈ ns, CanRun hw s (some p.2)) ∨ CanRun hw s s.idleTask ∧ Repeats ns := by
  constructor
  · intro hsel
    by_contra hcase
    obtain ⟨hn, hrep⟩ := not_or.mp hcase
    exact not_selects h hne hclock (fun p hp hr => hn ⟨p, hp, hr⟩) hrep hsel
  · rintro (⟨p, hp, hr⟩ | ⟨hi, hrep⟩)
    · exact selects_of_canRun h hclock hp hr
    · exact selects_of_repeats h hne hclock hi hrep

/-- A clock that stands still. -/
def stopped : Platform := ⟨fun _ => 0, 1, 0⟩

/-- An idle task at 0 and tasks at 1 and 2 that wait for input. -/
def waitingTasks : CellStore Task :=
  ((CellStore.empty.alloc ⟨.ready, 0, 0, 0⟩).alloc ⟨.waitingIo, 1, 1, 0⟩).alloc ⟨.waitingIo, 2, 2, 0⟩

def oneWaiting : Scheduler :=
  { blank with
    tasks := waitingTasks
    idleTask := some 0
    queue := ⟨CellStore.empty.alloc ⟨1, none, none⟩, some 0, some 0⟩ }

def twoWaiting : Scheduler :=
  { blank with
    tasks := waitingTasks
    idleTask := some 0
    queue := ⟨(CellStore.empty.alloc ⟨1, none, some 1⟩).alloc ⟨2, some 0, none⟩, some 0, some 0⟩ }

theorem oneWaiting_queued : Queued oneWaiting [(0, 1)] 0 := by
  refine ⟨⟨?_, by simp, rfl, rfl, Or.inr (by simp)⟩, ?_, ⟨0, _, rfl, rfl⟩⟩
  · intro i a t ht
    match i with
    | 0 =>
      cases ht
      exact ⟨_, rfl, rfl, rfl, fun h => absurd h (by omega)⟩
    | i + 1 => simp at ht
  · intro p hp
    rw [List.mem_singleton.mp hp]
    exact ⟨_, rfl⟩

theorem twoWaiting_queued : Queued twoWaiting [(0, 1), (1, 2)] 0 := by
  refine ⟨⟨?_, by simp, rfl, rfl, Or.inr (by simp)⟩, ?_, ⟨0, _, rfl, rfl⟩⟩
  · intro i a t ht
    match i with
    | 0 =>
      cases ht
      exact ⟨_, rfl, rfl, rfl, fun h => absurd h (by omega)⟩
    | 1 =>
      cases ht
      exact ⟨_, rfl, rfl, rfl, fun _ => rfl⟩
    | i + 2 => simp at ht
  · intro p hp
    rcases List.mem_cons.mp hp with rfl | hp
    · exact ⟨_, rfl⟩
    · rw [List.mem_singleton.mp hp]
      exact ⟨_, rfl⟩

theorem oneWaiting_selects_iff : Selects stopped oneWaiting [(0, 1)] ↔
    (∃ p ∈ [(0, 1)], CanRun stopped oneWaiting (some p.2)) ∨
      CanRun stopped oneWaiting oneWaiting.idleTask ∧ Repeats [(0, 1)] :=
  select_selects_iff oneWaiting_queued (by simp) fun _ _ _ _ _ => Iff.rfl

/-- Two tasks that wait for input keep the loop from ever reaching the idle task. -/
theorem twoWaiting_not_selects : ¬Selects stopped twoWaiting [(0, 1), (1, 2)] := by
  have hblocked : ∀ t, t = 1 ∨ t = 2 → ¬CanRun stopped twoWaiting (some t) := by
    intro t ht
    obtain ⟨a, hcell⟩ : ∃ a, twoWaiting.tasks.cell t = some ⟨.waitingIo, a, a, 0⟩ := by
      rcases ht with rfl | rfl
      · exact ⟨1, rfl⟩
      · exact ⟨2, rfl⟩
    rw [not_canRun rfl hcell]
    unfold Runnable
    simp
  refine not_selects twoWaiting_queued (by simp) (fun _ _ _ _ _ => Iff.rfl) ?_ ?_
  · intro p hp
    apply hblocked
    rcases List.mem_cons.mp hp with rfl | hp
    · exact Or.inl rfl
    · rw [List.mem_singleton.mp hp]
      exact Or.inr rfl
  · rintro ⟨_, i, hi, he⟩
    match i with
    | 0 => simp at he
    | 1 => simp at he
    | i + 2 => simp at hi

end Scheduler

end UmbraOS
