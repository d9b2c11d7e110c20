import UmbraOS.SchedulerCoherent
import UmbraOS.SchedulerTermination

namespace UmbraOS

theorem TaskList.Holds.cursor_unique {q : TaskList} {ns : List (Nat × Nat)} {c c' : Nat}
    (h : q.Holds ns c) (h' : q.Holds ns c') (hne : ns ≠ []) : c = c' := by
  obtain ⟨a, t, ht⟩ := h.entry hne
  have ha := TaskList.addr_of_getElem? ht
  exact TaskList.addr_inj h.nodup ha (h'.current.symm.trans (h.current.trans ha))

namespace Scheduler

/-- A platform whose time stamp counter stands still. -/
def fixed (hw : Platform) (stamp : Nat) : Platform := { hw with tsc := fun _ => stamp }

variable {hw : Platform}

theorem fixed_clock (hw : Platform) (stamp : Nat) (s : Scheduler) :
    ClockHolds (fixed hw stamp) s := fun _ _ _ _ _ => Iff.rfl

theorem taskAt_getElem {ns : List (Nat × Nat)} (hne : ns ≠ []) (i : Nat) :
    (ns.map Prod.snd)[i % ns.length]? = taskAt ns i ∧ i % ns.length < ns.length :=
  ⟨List.getElem?_map, Nat.mod_lt _ (List.length_pos_of_ne_nil hne)⟩

/-- In a queue of distinct tasks, the task tells the position. -/
theorem taskAt_inj {ns : List (Nat × Nat)} (hne : ns ≠ []) (hd : (ns.map Prod.snd).Nodup)
    {i j : Nat} (h : taskAt ns i = taskAt ns j) : i % ns.length = j % ns.length := by
  obtain ⟨hi, hil⟩ := taskAt_getElem hne i
  obtain ⟨hj, _⟩ := taskAt_getElem hne j
  have hlt : i % ns.length < (ns.map Prod.snd).length := by
    rw [List.length_map]
    exact hil
  exact (List.getElem?_inj hlt hd).mp (hi.trans (h.trans hj.symm))

/-- Two positions in a row of a longer queue are different tasks. -/
theorem taskAt_succ_ne {ns : List (Nat × Nat)} (hl : 1 < ns.length)
    (hd : (ns.map Prod.snd).Nodup) (i : Nat) : taskAt ns (i + 1) ≠ taskAt ns i := by
  intro h
  have hne : ns ≠ [] := List.ne_nil_of_length_pos (by omega)
  have hmod := taskAt_inj hne hd h
  have hlt : i % ns.length < ns.length := Nat.mod_lt _ (by omega)
  rw [Nat.add_mod, Nat.mod_eq_of_lt hl] at hmod
  by_cases hlast : i % ns.length + 1 = ns.length
  · rw [hlast, Nat.mod_self] at hmod
    omega
  · rw [Nat.mod_eq_of_lt (by omega)] at hmod
    omega

/-- The loop stops at the first position from the cursor on whose task can run. -/
theorem selectLoop_first (d : Nat) {s s' : Scheduler} {ns : List (Nat × Nat)} {c fuel : Nat}
    (h : Selecting s ns c) (hd : (ns.map Prod.snd).Nodup) 
    (hclock : 0 < d → ClockHolds hw s)
    (hcur : s.currentTask = taskAt ns c) (hl : d < ns.length)
    (hskip : ∀ j < d, ¬CanRun hw s (taskAt ns (c + j))) (hrun : CanRun hw s (taskAt ns (c + d)))
    (hs : s.selectLoop hw fuel = .ok s') : s'.currentTask = taskAt ns (c + d) := by
  induction d generalizing s c fuel with
  | zero =>
    have hnow : CanRun hw s s.currentTask := by
      rw [hcur]
      exact hrun
    obtain ⟨u, hu, hok, hzero⟩ := selectLoop_canRun hnow
    have hsu : s' = u := by
      cases fuel with
      | zero =>
        rcases hzero with hz | hz
        · exact Except.ok.inj (hs.symm.trans hz)
        · rw [hs] at hz
          cases hz
      | succ fuel => exact Except.ok.inj (hs.symm.trans (hok fuel))
    rw [hsu, hu]
    exact hcur
  | succ d ih =>
    have hclock := hclock (Nat.succ_pos d)
    have hblocked : ¬CanRun hw s s.currentTask := by
      rw [hcur]
      exact hskip 0 (Nat.succ_pos d)
    obtain ⟨s₁, hturn, hskips, hsel⟩ := h.next hblocked
    cases fuel with
    | zero =>
      rw [selectLoop_stall hturn] at hs
      cases hs
    | succ fuel =>
      rw [selectLoop_continue hturn] at hs
      have hpos : ∀ j, taskAt ns ((c + 1) % ns.length + j) = taskAt ns (c + (j + 1)) := by
        intro j
        rw [taskAt_mod, show c + 1 + j = c + (j + 1) by omega]
      have hpos₀ : taskAt ns ((c + 1) % ns.length) = taskAt ns (c + 1) := hpos 0
      have hcur₁ : s₁.currentTask = taskAt ns ((c + 1) % ns.length) := by
        have hne := taskAt_succ_ne (by omega) hd c
        rw [← hcur] at hne
        rw [hskips.current, if_neg hne, hpos₀]
      have hrest := ih hsel (fun _ => hskips.clock hclock) hcur₁ (by omega) (fun j hj => ?_) ?_ hs
      · rw [hrest, hpos]
      · rw [hskips.canRun hclock, hpos]
        exact hskip (j + 1) (by omega)
      · rw [hskips.canRun hclock, hpos]
        exact hrun

theorem Stocked.saveContext_ok {s : Scheduler} {ns : List (Nat × Nat)} {c : Nat}
    (h : Stocked s ns c) (hcur : ∃ t task, s.currentTask = some t ∧ s.tasks.cell t = some task)
    (hne : ns ≠ []) (regs : Registers) : ∃ contexts,
      s.saveContext regs = .ok { s with contexts } ∧ Stocked { s with contexts } ns c := by
  obtain ⟨t, task, hc, ht⟩ := hcur
  obtain ⟨r, hr⟩ := h.context t task ht
  unfold Scheduler.saveContext
  rw [h.queue.isEmpty_eq, if_neg (by simpa using hne), read_current hc ht, Except.ok_bind]
  by_cases hready : task.status ≠ .ready
  · rw [if_pos hready, CellStore.modify_live _ hr]
    refine ⟨_, rfl, ⟨⟨h.queue, h.queued, h.idle⟩, h.idleOut, ?_, h.space, h.apart⟩⟩
    intro u b hu
    obtain ⟨x, hx⟩ := h.context u b hu
    simp only [CellStore.adjust_cell, hx]
    split <;> exact ⟨_, rfl⟩
  · rw [if_neg hready]
    exact ⟨s.contexts, rfl, h⟩

theorem Live.loadTask_ok {s : Scheduler} {ns : List (Nat × Nat)} {c : Nat} (h : Live s ns c) :
    ∃ r s', s.loadTask hw = .ok (r, s') := by
  obtain ⟨t, task, hc, ht⟩ := h.current_task
  obtain ⟨r, hr⟩ := h.context t task ht
  obtain ⟨sp, hsp⟩ := h.space t task ht
  unfold Scheduler.loadTask
  rw [read_current hc ht, Except.ok_bind, CellStore.read_live hr, Except.ok_bind,
    CellStore.read_live hsp, Except.ok_bind]
  exact ⟨_, _, rfl⟩

/-- `schedule` ends, and it ends at the task `d` positions behind the one after the cursor. -/
structure SelectsAt (hw : Platform) (s : Scheduler) (ns : List (Nat × Nat)) (c d : Nat)
    (regs : Registers) : Prop where
  terminates : ∃ fuel r s', s.schedule hw fuel regs = .ok (r, s')
  selected : ∀ fuel r s', s.schedule hw fuel regs = .ok (r, s') →
    s'.currentTask = taskAt ns (c + 1 + d) ∧ s'.queue.Holds ns ((c + 1 + d) % ns.length)

theorem schedule_selectsAt {s : Scheduler} {ns : List (Nat × Nat)} {c d : Nat}
    (h : Stocked s ns c) (hcur : ∃ t task, s.currentTask = some t ∧ s.tasks.cell t = some task)
    (hd : (ns.map Prod.snd).Nodup) (hclock : 0 < d → ClockHolds hw s) (hl : d < ns.length)
    (hskip : ∀ j < d, ¬CanRun hw s (taskAt ns (c + 1 + j)))
    (hrun : CanRun hw s (taskAt ns (c + 1 + d))) (regs : Registers) :
    SelectsAt hw s ns c d regs := by
  have hne : ns ≠ [] := List.ne_nil_of_length_pos (by omega)
  obtain ⟨ti, _, hi, _⟩ := h.idle
  obtain ⟨contexts, hsave, hstocked⟩ := h.saveContext_ok hcur hne regs
  have hschedule : ∀ fuel, s.schedule hw fuel regs =
      (do let s ← { s with contexts }.select hw fuel; s.loadTask hw) := by
    intro fuel
    unfold Scheduler.schedule
    rw [if_neg (by simp [hi]), hsave, Except.ok_bind]
  obtain ⟨s₁, hb⟩ := hstocked.toQueued.select_begins hne hw
  have hpos : ∀ j, taskAt ns ((c + 1) % ns.length + j) = taskAt ns (c + 1 + j) := fun j =>
    taskAt_mod ns (c + 1) j
  have hskip₁ : ∀ j < d, ¬CanRun hw s₁ (taskAt ns ((c + 1) % ns.length + j)) := by
    intro j hj
    rw [hb.canRun, hpos]
    exact hskip j hj
  have hrun₁ : CanRun hw s₁ (taskAt ns ((c + 1) % ns.length + d)) := by
    rw [hb.canRun, hpos]
    exact hrun
  have hclock₁ := fun hpos => hb.clock (hclock hpos)
  refine ⟨?_, fun fuel r s' hs => ?_⟩
  · obtain ⟨fuel, s₂, hs₂⟩ := selectLoop_reaches d hb.selecting hclock₁ (Or.inl hb.first) hrun₁
    have hselect : { s with contexts }.select hw fuel = .ok s₂ := (hb.select fuel).trans hs₂
    have hlive₂ : ∃ c', Live s₂ ns c' := (hstocked.select hw fuel hne).result hselect
    obtain ⟨c', hlive₂⟩ := hlive₂
    obtain ⟨r, s', hload⟩ : ∃ r s', s₂.loadTask hw = .ok (r, s') := hlive₂.loadTask_ok
    exact ⟨fuel, r, s', by rw [hschedule, hselect, Except.ok_bind, hload]⟩
  · rw [hschedule] at hs
    obtain ⟨s₂, hselect, hload⟩ := Except.bind_eq_ok.mp hs
    obtain ⟨⟨cr3, rfl⟩, _⟩ := Scheduler.loadTask_ok hload
    rw [hb.select] at hselect
    have hcurrent : s₂.currentTask = taskAt ns (c + 1 + d) := by
      rw [selectLoop_first d hb.selecting hd hclock₁ hb.first hl hskip₁ hrun₁ hselect, hpos]
    obtain ⟨⟨c', hq, hlook⟩, hmoves, _⟩ := selectLoop_looks fuel hb.selecting.queued
      (Or.inr ⟨hne, hb.first⟩) hselect
    refine ⟨hcurrent, ?_⟩
    -- the idle task is not queued, so the cursor is where the selected task is
    have hat : s₂.currentTask = taskAt ns c' := by
      rcases hlook with hidle | ⟨_, hat⟩
      · obtain ⟨t, task, ht, _⟩ := h.taskAt_live hne (c + 1 + d)
        obtain ⟨p, hp, hpt⟩ := taskAt_mem ht
        have hsame : s₂.idleTask = s.idleTask := hmoves.idleTask.trans hb.idleTask
        rw [hcurrent, ht, hsame, ← hpt] at hidle
        exact absurd hidle.symm (h.idleOut p hp)
      · exact hat
    have hmod := taskAt_inj hne hd (hat.symm.trans hcurrent)
    rw [Nat.mod_eq_of_lt (hq.queue.cursor.resolve_left hne)] at hmod
    rw [← hmod]
    exact hq.queue

/-- The first of the tasks behind the cursor that can run. -/
theorem first_canRun {s : Scheduler} {ns : List (Nat × Nat)} {c k : Nat}
    (hrun : CanRun hw s (taskAt ns (c + 1 + k))) : ∃ d ≤ k,
      (∀ j < d, ¬CanRun hw s (taskAt ns (c + 1 + j))) ∧ CanRun hw s (taskAt ns (c + 1 + d)) := by
  classical
  have hex : ∃ d, CanRun hw s (taskAt ns (c + 1 + d)) := ⟨k, hrun⟩
  exact ⟨Nat.find hex, Nat.find_min' hex hrun, fun j hj => Nat.find_min hex hj, Nat.find_spec hex⟩

/-- Every task of the queue is less than a round ahead of the cursor. -/
theorem taskAt_within {ns : List (Nat × Nat)} {p : Nat × Nat} (hp : p ∈ ns) (c : Nat) :
    ∃ k < ns.length, taskAt ns (c + k) = some p.2 := by
  obtain ⟨i, hi, ht⟩ := taskAt_of_mem hp
  have hlt : c % ns.length < ns.length := Nat.mod_lt _ (by omega)
  have hmod : ∀ k, taskAt ns (c + k) = taskAt ns (c % ns.length + k) := fun k =>
    (taskAt_mod ns c k).symm
  by_cases hle : c % ns.length ≤ i
  · refine ⟨i - c % ns.length, by omega, ?_⟩
    rw [hmod, Nat.add_sub_cancel' hle]
    exact ht
  · refine ⟨i + ns.length - c % ns.length, by omega, ?_⟩
    rw [hmod, Nat.add_sub_cancel' (by omega)]
    unfold taskAt
    rw [Nat.add_mod_right]
    exact ht

/-- Calls of `schedule`, one after another, on the queue `ns`, and the tasks they select. Each
call has a time stamp of its own, and finds the task `t` able to run; between two calls anything
may change but the queue. -/
inductive Rounds (hw : Platform) (ns : List (Nat × Nat)) (t : Nat) :
    Scheduler → List (Option Nat) → Prop
  | nil (s : Scheduler) : Rounds hw ns t s []
  | call {s s' s'' : Scheduler} {c stamp fuel : Nat} {regs r : Registers}
      {selected : List (Option Nat)} (live : Live s ns c)
      (runnable : CanRun (fixed hw stamp) s (some t))
      (call : s.schedule (fixed hw stamp) fuel regs = .ok (r, s'))
      (queue : s''.queue = s'.queue) (rest : Rounds hw ns t s'' selected) :
      Rounds hw ns t s (s'.currentTask :: selected)

/-- A task `k` positions ahead is selected by one of the next `k + 1` calls. -/
theorem Rounds.reaches {ns : List (Nat × Nat)} {t : Nat} {s : Scheduler}
    {selected : List (Option Nat)} (h : Rounds hw ns t s selected)
    (hd : (ns.map Prod.snd).Nodup) (hne : ns ≠ []) {c k : Nat} (hq : s.queue.Holds ns c)
    (ht : taskAt ns (c + 1 + k) = some t) (hk : k < ns.length) (hlen : k < selected.length) :
    some t ∈ selected := by
  induction h generalizing c k with
  | nil s => cases hlen
  | @call s s' s'' c' stamp fuel regs r selected live runnable call queue rest ih =>
    obtain rfl : c = c' := hq.cursor_unique live.queue hne
    have hrun : CanRun (fixed hw stamp) s (taskAt ns (c + 1 + k)) := by
      rw [ht]
      exact runnable
    obtain ⟨d, hdk, hskip, hfirst⟩ := first_canRun hrun
    have hselects := schedule_selectsAt live.toStocked live.current_task hd
      (fun _ => fixed_clock hw stamp s) (by omega) hskip hfirst regs
    obtain ⟨hcurrent, hholds⟩ := hselects.selected fuel r s' call
    by_cases he : d = k
    · rw [hcurrent, he, ht]
      exact List.mem_cons_self
    · apply List.mem_cons_of_mem
      rw [← queue] at hholds
      have hahead : taskAt ns ((c + 1 + d) % ns.length + 1 + (k - d - 1)) = some t := by
        rw [Nat.add_assoc, taskAt_mod, show c + 1 + d + (1 + (k - d - 1)) = c + 1 + k by omega]
        exact ht
      rw [List.length_cons] at hlen
      exact ih hholds hahead (by omega) (by omega)

/-- With distinct tasks in the queue, `schedule` selects the first one behind the cursor that can
run, and a task that can run at each of as many calls as there are tasks is selected. -/
theorem round_robin {ns : List (Nat × Nat)} (hd : (ns.map Prod.snd).Nodup) :
    (∀ s c stamp regs, Live s ns c → (∃ p ∈ ns, CanRun (fixed hw stamp) s (some p.2)) →
      ∃ d < ns.length, (∀ j < d, ¬CanRun (fixed hw stamp) s (taskAt ns (c + 1 + j))) ∧
        CanRun (fixed hw stamp) s (taskAt ns (c + 1 + d)) ∧
        SelectsAt (fixed hw stamp) s ns c d regs) ∧
    ∀ s c t selected, s.queue.Holds ns c → (∃ p ∈ ns, p.2 = t) → Rounds hw ns t s selected →
      selected.length = ns.length → some t ∈ selected := by
  refine ⟨fun s c stamp regs hlive hsome => ?_, fun s c t selected hq hmem hrounds hlen => ?_⟩
  · obtain ⟨p, hp, hrun⟩ := hsome
    obtain ⟨k, hk, ht⟩ := taskAt_within hp (c + 1)
    rw [← ht] at hrun
    obtain ⟨d, hdk, hskip, hfirst⟩ := first_canRun hrun
    exact ⟨d, by omega, hskip, hfirst, schedule_selectsAt hlive.toStocked hlive.current_task
      hd (fun _ => fixed_clock hw stamp s) (by omega) hskip hfirst regs⟩
  · obtain ⟨p, hp, rfl⟩ := hmem
    obtain ⟨k, hk, ht⟩ := taskAt_within hp (c + 1)
    exact hrounds.reaches hd (List.ne_nil_of_mem hp) hq ht hk (by omega)

theorem Coherent.ticked {s : Scheduler} {ns : List (Nat × Nat)} {c : Nat} (h : Coherent s ns c)
    (time : Nat) : Coherent { s with realTime := time } ns c :=
  ⟨⟨⟨h.queue, h.queued, h.idle⟩, h.idleOut, h.context, h.space, h.apart⟩, h.distinct, h.looks,
    h.started⟩

def woken (s : Scheduler) (t : Nat) : Scheduler :=
  { s with tasks := s.tasks.adjust t fun x => { x with status := .running } }

/-- Of two tasks one waits for input and the other runs; `schedule` takes the other again, and after
an input the first. -/
theorem two_tasks_started : ∃ s s' s'' ns c c' r r', Coherent s ns c ∧ ns.map Prod.snd = [2, 1] ∧
    s.currentTask = some 1 ∧ CanRun (fixed stopped 0) s (some 1) ∧
    ¬CanRun (fixed stopped 0) s (some 2) ∧
    s.schedule (fixed stopped 0) 1 zeroRegisters = .ok (r, s') ∧ s'.currentTask = some 1 ∧
    Coherent s' ns c' ∧ CanRun (fixed stopped 0) (s'.woken 2) (some 1) ∧
    (s'.woken 2).schedule (fixed stopped 0) 1 zeroRegisters = .ok (r', s'') ∧
    s''.currentTask = some 2 := by
  obtain ⟨s₁, h₁, hn⟩ : ∃ s₁, ((init plainTask).create plainTask).2.addTask
      ((init plainTask).create plainTask).1 = .ok s₁ ∧ s₁.tasks.next = 2 := ⟨_, rfl, rfl⟩
  obtain ⟨⟨a₁, c₁, hc₁⟩, _⟩ := (init_coherent plainTask).addTask h₁
  obtain ⟨s₂, s₃, s₄, r₃, r₄, h₂, h₃, hcur₃, h₄, hcur₄, hrun, hwait, r₅, s₅, h₅, hcur₅, hagain, r₆, s₆,
      h₆, hcur₆⟩ : ∃ s₂ s₃ s₄ r₃ r₄,
      (s₁.create plainTask).2.addTask (s₁.create plainTask).1 = .ok s₂ ∧
      s₂.handler (fixed stopped 0) 0 zeroRegisters = .ok (r₃, s₃) ∧ s₃.currentTask = some 2 ∧
      (s₃.awaited 2).handler (fixed stopped 0) 0 zeroRegisters = .ok (r₄, s₄) ∧
      s₄.currentTask = some 1 ∧ CanRun (fixed stopped 0) s₄ (some 1) ∧
      ¬CanRun (fixed stopped 0) s₄ (some 2) ∧
      ∃ r₅ s₅, s₄.handler (fixed stopped 0) 1 zeroRegisters = .ok (r₅, s₅) ∧
        s₅.currentTask = some 1 ∧ CanRun (fixed stopped 0) (s₅.woken 2) (some 1) ∧
        ∃ r₆ s₆, (s₅.woken 2).schedule (fixed stopped 0) 1 zeroRegisters = .ok (r₆, s₆) ∧
          s₆.currentTask = some 2 := by
    cases h₁
    refine ⟨_, _, _, _, _, rfl, rfl, rfl, rfl, rfl, ⟨1, _, rfl, rfl, Or.inr (Or.inl rfl)⟩, ?_,
      _, _, rfl, rfl, ⟨1, _, rfl, rfl, Or.inr (Or.inl rfl)⟩, _, _, rfl, rfl⟩
    rintro ⟨t, task, ht, hcell, hrunnable⟩
    cases ht
    cases hcell
    rcases hrunnable with h | h | ⟨h, _⟩ <;> cases h
  obtain ⟨⟨a₂, c₂, hc₂⟩, _⟩ := hc₁.addTask h₂
  rw [hn] at hc₂
  obtain ⟨c₃, hc₃⟩ := (hc₂.handler h₃).2
  obtain ⟨c₄, hc₄⟩ := ((hc₃.awaited hcur₃).handler h₄).2
  obtain ⟨c₅, hc₅⟩ := (hc₄.handler h₅).2
  exact ⟨_, s₅, s₆, _, c₄, c₅, r₅, r₆, hc₄.ticked (u64 (s₄.realTime + 1)), rfl, hcur₄, hrun,
    hwait, h₅, hcur₅, hc₅, hagain, h₆, hcur₆⟩

theorem two_tasks_selected : ∃ s ns c, Live s ns c ∧ ns.map Prod.snd = [2, 1] ∧
    (∃ d < ns.length, (∀ j < d, ¬CanRun (fixed stopped 0) s (taskAt ns (c + 1 + j))) ∧
      CanRun (fixed stopped 0) s (taskAt ns (c + 1 + d)) ∧
      SelectsAt (fixed stopped 0) s ns c d zeroRegisters ∧ d = 1) ∧
    Rounds stopped ns 1 s [some 1, some 2] ∧ some 1 ∈ [some 1, some 2] := by
  obtain ⟨s, s', s'', ns, c, c', r, r', hcoh, hns, hcur, hrun, hwait, hfirst, hcur', hcoh', hagain,
    hsecond, hcur''⟩ := two_tasks_started
  have hd : (ns.map Prod.snd).Nodup := by
    rw [hns]
    decide
  have hlen : ns.length = 2 := by
    rw [← List.length_map, hns]
    rfl
  obtain ⟨p, hp, hp₁⟩ : ∃ p ∈ ns, p.2 = 1 := List.mem_map.mp (by rw [hns]; decide)
  have hrounds : Rounds stopped ns 1 s [some 1, some 2] := by
    have hlast : Rounds stopped ns 1 s'' [] := .nil s''
    have hwoken := hcoh'.live.adjust 2 (f := fun x => { x with status := .running }) (fun _ => rfl)
      fun _ => rfl
    have hnext := Rounds.call hwoken hagain hsecond rfl hlast
    rw [hcur''] at hnext
    have hall := Rounds.call hcoh.live hrun hfirst (show (s'.woken 2).queue = s'.queue from rfl) hnext
    rw [hcur'] at hall
    exact hall
  obtain ⟨hselect, hfair⟩ := @round_robin stopped ns hd
  obtain ⟨d, hdlt, hskip, hcan, hselects⟩ :=
    hselect s c 0 zeroRegisters hcoh.live ⟨p, hp, by rw [hp₁]; exact hrun⟩
  refine ⟨s, ns, c, hcoh.live, hns, ⟨d, hdlt, hskip, hcan, hselects, ?_⟩, hrounds,
    hfair s c 1 _ hcoh.queue ⟨p, hp, hp₁⟩ hrounds hlen.symm⟩
  -- the running task is at the cursor, so the task behind it was passed over
  have hidle : s.currentTask ≠ s.idleTask := by
    rw [hcur, ← hp₁]
    exact (hcoh.idleOut p hp).symm
  have hat := (hcoh.looks.resolve_left hidle).2
  have hafter := (hselects.selected 1 r s' hfirst).1
  have hne : d ≠ 0 := by
    rintro rfl
    rw [hcur', ← hcur, hat] at hafter
    exact taskAt_succ_ne (by omega) hd c hafter.symm
  omega

end Scheduler

end UmbraOS
