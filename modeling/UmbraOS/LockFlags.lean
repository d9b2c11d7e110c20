import UmbraOS.LockTasks

namespace UmbraOS

/-- The lock that remembers the interrupt flag for a task, from the first statement of its outermost
`acquire` to the last of its outermost `release`. -/
def LockTask.outermost {ι : Type} (task : LockTask ι) : Option ι :=
  match task.held.getLast?, task.stmts with
  | some l, _ => some l
  | none, .disableInterrupts :: .spin l :: _ => some l
  | none, .spin l :: _ => some l
  | none, .restoreInterrupts l :: _ => some l
  | none, _ => none

namespace LockTask

variable {ι : Type} {held : List ι} {stmts : List (LockStmt ι)} {flags : BitVec 64} {l : ι}

theorem outermost_held (h : held ≠ []) : outermost ⟨stmts, held, flags⟩ = held.getLast? := by
  unfold outermost
  simp only [List.getLast?_eq_some_getLast h]

theorem outermost_same (h : held ≠ []) {stmts' : List (LockStmt ι)} {flags' : BitVec 64} :
    outermost ⟨stmts, held, flags⟩ = outermost ⟨stmts', held, flags'⟩ :=
  (outermost_held h).trans (outermost_held h).symm

/-- Between two calls only a lock that is held remembers the flag. -/
theorem outermost_between {ops : List (LockOp ι)}
    (h : outermost ⟨ops.flatMap LockOp.stmts, held, flags⟩ = some l) : held.getLast? = some l := by
  cases held with
  | nil =>
    cases ops with
    | nil => cases h
    | cons op ops => cases op <;> cases h
  | cons top held => rwa [outermost_held (List.cons_ne_nil top held)] at h

theorem outermost_save {l' : ι} (h : outermost ⟨.saveInterrupts l' :: stmts, held, flags⟩ = some l) :
    l ∈ held := by
  cases held with
  | nil => cases h
  | cons top held =>
    rw [outermost_held (List.cons_ne_nil top held)] at h
    exact List.mem_of_getLast? h

theorem between_ne_restore {ops : List (LockOp ι)} :
    ops.flatMap LockOp.stmts ≠ .restoreInterrupts l :: stmts := by
  cases ops with
  | nil => exact List.cons_ne_nil _ _ ∘ Eq.symm
  | cons op ops => cases op <;> exact fun h => by cases h

end LockTask

namespace LockState

variable {ι : Type} [DecidableEq ι] {s s' : LockState ι} {held : List ι} {l : ι}

/-- The next statement of a task, and what comes after it. -/
inductive Next (s : LockState ι) (held : List ι) : LockStmt ι → List (LockStmt ι) → Prop
  | save (l : ι) (rest : List (LockStmt ι)) (hl : l ∉ held) :
      Next s held (.saveInterrupts l) (.disableInterrupts :: .spin l :: rest)
  | disable (l : ι) (rest : List (LockStmt ι)) : Next s held .disableInterrupts (.spin l :: rest)
  | spin (l : ι) (ops : List (LockOp ι)) : Next s held (.spin l) (ops.flatMap LockOp.stmts)
  | unlock (l : ι) (rest : List (LockStmt ι)) (hl : held ≠ [] → ∃ older, held = l :: older) :
      Next s held (.unlock l) (.restoreInterrupts l :: rest)
  | restore (l : ι) (ops : List (LockOp ι)) :
      Next s held (.restoreInterrupts l) (ops.flatMap LockOp.stmts)

theorem next_between {ops : List (LockOp ι)} (hops : holding held ops ≠ none) {stmt : LockStmt ι}
    {rest : List (LockStmt ι)} (hnext : ops.flatMap LockOp.stmts = stmt :: rest) :
    s.Next held stmt rest := by
  cases ops with
  | nil => cases hnext
  | cons op ops =>
    rw [List.flatMap_cons] at hnext
    cases op with
    | acquire l =>
      obtain ⟨rfl, rfl⟩ := List.cons.inj hnext
      refine Next.save l _ fun hl => hops ?_
      rw [holding, if_pos hl]
    | release l =>
      obtain ⟨rfl, rfl⟩ := List.cons.inj hnext
      refine Next.unlock l _ fun hne => ?_
      cases held with
      | nil => exact absurd rfl hne
      | cons top held =>
        by_cases htop : top = l
        · exact ⟨held, by rw [htop]⟩
        · exact absurd (by rw [holding, if_neg htop]) hops

theorem Stands.next {stmt : LockStmt ι} {rest : List (LockStmt ι)} (h : s.Stands (stmt :: rest) held) :
    s.Next held stmt rest := by
  generalize hstmts : stmt :: rest = stmts at h
  cases h with
  | between ops _ hops => exact next_between hops hstmts.symm
  | disables l ops =>
    obtain ⟨rfl, rfl⟩ := List.cons.inj hstmts
    exact Next.disable l _
  | spins l ops =>
    obtain ⟨rfl, rfl⟩ := List.cons.inj hstmts
    exact Next.spin l ops
  | restores l ops =>
    obtain ⟨rfl, rfl⟩ := List.cons.inj hstmts
    exact Next.restore l ops

/-- The outermost lock of a task changes only when it begins to acquire one. -/
theorem Next.outermost {stmt : LockStmt ι} {rest : List (LockStmt ι)} {flags : BitVec 64}
    (h : s.Next held stmt rest) (hown : ∀ l, stmt = .unlock l → held ≠ [])
    (hafter : LockTask.outermost ⟨rest, stmt.held held, flags⟩ = some l) :
    LockTask.outermost ⟨stmt :: rest, held, flags⟩ = some l ∨ held = [] ∧ stmt = .saveInterrupts l := by
  cases h with
  | save l' rest hl =>
    cases held with
    | nil =>
      obtain rfl := Option.some.inj hafter
      exact Or.inr ⟨rfl, rfl⟩
    | cons top held => exact Or.inl ((LockTask.outermost_same (List.cons_ne_nil top held)).trans hafter)
  | disable l' rest =>
    cases held with
    | nil => exact Or.inl hafter
    | cons top held => exact Or.inl ((LockTask.outermost_same (List.cons_ne_nil top held)).trans hafter)
  | spin l' ops =>
    have hlast := LockTask.outermost_between hafter
    cases held with
    | nil => exact Or.inl hlast
    | cons top held =>
      rw [LockStmt.held, List.getLast?_cons_cons] at hlast
      exact Or.inl ((LockTask.outermost_held (List.cons_ne_nil top held)).trans hlast)
  | unlock l' rest hl =>
    obtain ⟨older, rfl⟩ := hl (hown l' rfl)
    rw [LockStmt.held, List.erase_cons_head] at hafter
    cases older with
    | nil => exact Or.inl hafter
    | cons top older =>
      rw [LockTask.outermost_held (List.cons_ne_nil top older)] at hafter
      refine Or.inl ((LockTask.outermost_held (List.cons_ne_nil l' _)).trans ?_)
      rwa [List.getLast?_cons_cons]
  | restore l' ops =>
    have hlast := LockTask.outermost_between hafter
    cases held with
    | nil => cases hlast
    | cons top held => exact Or.inl ((LockTask.outermost_held (List.cons_ne_nil top held)).trans hlast)

/-- Only the first statement of `acquire` changes what a lock remembers. -/
theorem exec_restore {stmt : LockStmt ι} (h : s.exec 0 stmt = some s') (hne : stmt ≠ .saveInterrupts l) :
    (s'.locks l).restoreInterrupts = (s.locks l).restoreInterrupts := by
  have hset : ∀ l' b, ((s.setLock l' { s.locks l' with locked := b }).locks l).restoreInterrupts =
      (s.locks l).restoreInterrupts := by
    intro l' b
    by_cases hl : l = l'
    · rw [hl, setLock_same]
    · rw [setLock_other _ _ hl]
  cases stmt with
  | saveInterrupts l' =>
    have hl : l ≠ l' := fun heq => hne (by rw [heq])
    obtain rfl := Option.some.inj h
    rw [setLock_other _ _ hl]
  | disableInterrupts =>
    obtain rfl := Option.some.inj h
    rfl
  | spin l' =>
    by_cases hlocked : (s.locks l').locked = true
    · have hwaits : s.exec 0 (.spin l') = none := spin_locked 0 hlocked
      rw [hwaits] at h
      cases h
    · have hspin : s.exec 0 (.spin l') = _ := spin_free (Bool.eq_false_iff.mpr hlocked) 0
      obtain rfl := Option.some.inj (hspin.symm.trans h)
      exact hset l' true
  | unlock l' =>
    obtain rfl := Option.some.inj h
    exact hset l' false
  | restoreInterrupts l' =>
    obtain rfl := Option.some.inj h
    split <;> rfl

theorem execAll_restore {stmts : List (LockStmt ι)} (h : s.execAll 0 stmts = some s')
    (hne : .saveInterrupts l ∉ stmts) :
    (s'.locks l).restoreInterrupts = (s.locks l).restoreInterrupts := by
  induction stmts generalizing s with
  | nil =>
    obtain rfl := Option.some.inj h
    rfl
  | cons stmt stmts ih =>
    unfold execAll at h
    rw [List.foldlM_cons] at h
    obtain ⟨s₁, hfirst, hrest⟩ := Option.bind_eq_some_iff.mp h
    rw [ih hrest fun hmem => hne (List.mem_cons_of_mem stmt hmem)]
    exact exec_restore hfirst fun heq => hne (by rw [heq]; exact List.mem_cons_self)

omit [DecidableEq ι] in
theorem save_mem_stmts {ops : List (LockOp ι)}
    (h : .saveInterrupts l ∈ ops.flatMap LockOp.stmts) : .acquire l ∈ ops := by
  obtain ⟨op, hop, hmem⟩ := List.mem_flatMap.mp h
  cases op with
  | acquire l' =>
    simp only [LockOp.stmts, List.mem_cons, LockStmt.saveInterrupts.injEq, reduceCtorEq,
      List.not_mem_nil, or_false] at hmem
    rwa [hmem]
  | release l' => simp [LockOp.stmts] at hmem

end LockState

/-- Tasks, and for each the interrupt flag that its outermost `acquire` found. -/
structure FlaggedTasks (ι τ : Type) where
  tasks : LockTasks ι τ
  found : τ → Bool

namespace FlaggedTasks

open LockState

variable {ι τ : Type} [DecidableEq ι] [DecidableEq τ]

/-- The flag is noted at the first statement of an outermost `acquire`. -/
def noted (s : FlaggedTasks ι τ) (t : τ) : Bool :=
  match s.tasks.running.held, s.tasks.running.stmts with
  | [], .saveInterrupts _ :: _ => if t = s.tasks.current then s.tasks.cpu.interruptsEnabled else s.found t
  | _, _ => s.found t

def note (s : FlaggedTasks ι τ) : LockMove ι τ → τ → Bool
  | .statement => s.noted
  | _ => s.found

def move (s : FlaggedTasks ι τ) (m : LockMove ι τ) : Except Trap (FlaggedTasks ι τ) := do
  let tasks ← s.tasks.move m
  return ⟨tasks, s.note m⟩

/-- Nobody begins to acquire a lock while another task has saved its flag in it and not disabled
interrupts yet, and nobody releases a lock without one. -/
def InTurn (s : FlaggedTasks ι τ) : LockMove ι τ → Prop
  | .statement =>
    match s.tasks.running.stmts with
    | .saveInterrupts l :: _ => ∀ t, t ≠ s.tasks.current → (s.tasks.tasks t).outermost ≠ some l
    | .unlock _ :: _ => s.tasks.running.held ≠ []
    | _ => True
  | .interrupt ops => ∀ t l, (s.tasks.tasks t).outermost = some l → .acquire l ∉ ops
  | _ => True

structure Kept (s : FlaggedTasks ι τ) : Prop where
  sound : s.tasks.Sound
  remembers : ∀ t l, (s.tasks.tasks t).outermost = some l →
    (s.tasks.cpu.locks l).restoreInterrupts = s.found t
  off : ∀ l rest, s.tasks.running.stmts = .restoreInterrupts l :: rest → s.tasks.running.held = [] →
    s.tasks.cpu.interruptsEnabled = false
  rests : ∀ t, t ≠ s.tasks.current → ∀ l rest, (s.tasks.tasks t).stmts ≠ .restoreInterrupts l :: rest

variable {s s' : FlaggedTasks ι τ} {m : LockMove ι τ}

theorem move_ok {tasks : LockTasks ι τ} (h : s.tasks.move m = .ok tasks) :
    s.move m = .ok ⟨tasks, s.note m⟩ := by
  unfold move
  rw [h]
  rfl

omit [DecidableEq ι] in
theorem noted_other {t : τ} (ht : t ≠ s.tasks.current) : s.noted t = s.found t := by
  unfold noted
  split
  next => rw [if_neg ht]
  next => rfl

omit [DecidableEq ι] in
theorem noted_save {l : ι} {rest : List (LockStmt ι)} (hheld : s.tasks.running.held = [])
    (hstmts : s.tasks.running.stmts = .saveInterrupts l :: rest) :
    s.noted s.tasks.current = s.tasks.cpu.interruptsEnabled := by
  unfold noted
  simp only [hheld, hstmts, if_true]

omit [DecidableEq ι] in
theorem noted_same (h : ∀ l rest, s.tasks.running.held = [] →
    s.tasks.running.stmts ≠ .saveInterrupts l :: rest) (t : τ) : s.noted t = s.found t := by
  unfold noted
  split
  next hheld hstmts => exact absurd hstmts (h _ _ hheld)
  next => rfl

omit [DecidableEq ι] in
theorem goes_on_current (s : LockTasks ι τ) (cpu : LockState ι) (task : LockTask ι) :
    ((s.setCpu cpu).setRunning task).tasks s.current = task :=
  LockTasks.setRunning_running (s.setCpu cpu) task

omit [DecidableEq ι] in
theorem goes_on_other (s : LockTasks ι τ) (cpu : LockState ι) (task : LockTask ι) {t : τ}
    (ht : t ≠ s.current) : ((s.setCpu cpu).setRunning task).tasks t = s.tasks t :=
  LockTasks.setRunning_other (s.setCpu cpu) task ht

theorem statement_ok {s : LockTasks ι τ} {stmt : LockStmt ι} {rest : List (LockStmt ι)}
    {cpu : LockState ι} (hstmts : s.running.stmts = stmt :: rest) (hexec : s.cpu.exec 0 stmt = some cpu) :
    s.statement = .ok ((s.setCpu cpu).setRunning ⟨rest, stmt.held s.running.held, s.running.flags⟩) := by
  unfold LockTasks.statement
  rw [hstmts]
  simp only [hexec]
  rfl

/-- The invariant for a statement of the running task. -/
theorem Kept.executes (h : s.Kept) (hm : s.InTurn .statement) {stmt : LockStmt ι}
    {rest : List (LockStmt ι)} {cpu : LockState ι} (hstmts : s.tasks.running.stmts = stmt :: rest)
    (hexec : s.tasks.cpu.exec 0 stmt = some cpu)
    (hafter : cpu.Stands rest (stmt.held s.tasks.running.held))
    (hnext : s.tasks.cpu.Next s.tasks.running.held stmt rest) :
    Kept ⟨(s.tasks.setCpu cpu).setRunning ⟨rest, stmt.held s.tasks.running.held, s.tasks.running.flags⟩,
      s.noted⟩ := by
  unfold InTurn at hm
  simp only [hstmts] at hm
  have hown : ∀ l, stmt = .unlock l → s.tasks.running.held ≠ [] := by
    rintro l rfl
    exact hm
  have hrunning : s.tasks.running = ⟨stmt :: rest, s.tasks.running.held, s.tasks.running.flags⟩ := by
    rw [← hstmts]
  refine ⟨h.sound.goes_on hafter, fun t l hl => ?_, fun l rest' hrest hheld => ?_, fun t ht => ?_⟩
  · by_cases ht : t = s.tasks.current
    · subst ht
      rw [goes_on_current] at hl
      rcases hnext.outermost hown hl with hbefore | ⟨hheld, rfl⟩
      · have hne : stmt ≠ .saveInterrupts l := by
          rintro rfl
          cases hnext with
          | save _ _ hnot => exact hnot (LockTask.outermost_save hbefore)
        have hsame : s.noted s.tasks.current = s.found s.tasks.current := by
          refine noted_same (fun l' rest' hheld hsave => ?_) _
          rw [hstmts] at hsave
          obtain ⟨rfl, rfl⟩ := List.cons.inj hsave
          have hmem := LockTask.outermost_save hbefore
          rw [hheld] at hmem
          cases hmem
        show (cpu.locks l).restoreInterrupts = s.noted s.tasks.current
        rw [exec_restore hexec hne, hsame]
        refine h.remembers s.tasks.current l ?_
        rwa [← hrunning] at hbefore
      · show (cpu.locks l).restoreInterrupts = s.noted s.tasks.current
        rw [noted_save hheld hstmts]
        obtain rfl := Option.some.inj hexec
        rw [setLock_same]
    · rw [goes_on_other s.tasks cpu _ ht] at hl
      have hne : stmt ≠ .saveInterrupts l := by
        rintro rfl
        exact hm t ht hl
      show (cpu.locks l).restoreInterrupts = s.noted t
      rw [exec_restore hexec hne, noted_other ht]
      exact h.remembers t l hl
  · rw [LockTasks.setRunning_running] at hrest hheld
    cases hnext with
    | save => cases hrest
    | disable => cases hrest
    | spin => exact absurd hrest LockTask.between_ne_restore
    | restore => exact absurd hrest LockTask.between_ne_restore
    | unlock l' =>
      obtain rfl := Option.some.inj hexec
      exact h.sound.stands.owns.off (hown l' rfl)
  · rw [goes_on_other s.tasks cpu _ ht]
    exact h.rests t ht

theorem Kept.statement (h : s.Kept) (hm : s.InTurn .statement) :
    ∃ s', s.move .statement = .ok s' ∧ s'.Kept := by
  cases hstmts : s.tasks.running.stmts with
  | nil =>
    have hmove : s.tasks.move .statement = .ok s.tasks := by
      show s.tasks.statement = .ok s.tasks
      unfold LockTasks.statement
      rw [hstmts]
    have hsame : s.noted = s.found := funext fun t =>
      noted_same (fun l rest _ hsave => by rw [hstmts] at hsave; cases hsave) t
    refine ⟨_, move_ok hmove, ?_⟩
    show Kept ⟨s.tasks, s.noted⟩
    rw [hsame]
    exact h
  | cons stmt rest =>
    have hstands := h.sound.stands
    rw [hstmts] at hstands
    obtain ⟨cpu, hexec, hafter⟩ := hstands.exec
    have hmove : s.tasks.move .statement = _ := statement_ok hstmts hexec
    exact ⟨_, move_ok hmove, h.executes hm hstmts hexec hafter hstands.next⟩

/-- Whoever gives way is not in the middle of `release`. -/
theorem Kept.leaves (h : s.Kept) (hleave : s.tasks.cpu.interruptsEnabled = true ∨
    s.tasks.running.stmts = [] ∧ s.tasks.running.held = []) (t : τ) (l : ι) (rest : List (LockStmt ι)) :
    (s.tasks.tasks t).stmts ≠ .restoreInterrupts l :: rest := by
  by_cases ht : t = s.tasks.current
  · subst ht
    intro hstmts
    obtain ⟨hrests, -⟩ := h.sound.leaves hleave
    have hoff := h.off l rest hstmts hrests.held
    rcases hleave with hon | hdone
    · rw [hoff] at hon
      cases hon
    · cases hstmts.symm.trans hdone.1
  · exact h.rests t ht l rest

omit [DecidableEq ι] in
theorem saveContext_task (s : LockTasks ι τ) (t : τ) :
    (s.saveContext.tasks t).stmts = (s.tasks t).stmts ∧ (s.saveContext.tasks t).held = (s.tasks t).held := by
  by_cases ht : t = s.current
  · subst ht
    rw [show s.saveContext.tasks s.current = _ from LockTasks.setRunning_running s _]
    exact ⟨rfl, rfl⟩
  · rw [LockTasks.saveContext, LockTasks.setRunning_other _ _ ht]
    exact ⟨rfl, rfl⟩

theorem Kept.schedule (h : s.Kept) (hleave : s.tasks.cpu.interruptsEnabled = true ∨
    s.tasks.running.stmts = [] ∧ s.tasks.running.held = []) (t : τ) :
    Kept ⟨s.tasks.schedule t, s.found⟩ := by
  obtain ⟨hrests, howns⟩ := h.sound.leaves hleave
  have hstmts : ∀ t' l rest, ((s.tasks.schedule t).tasks t').stmts ≠ .restoreInterrupts l :: rest := by
    intro t' l rest
    rw [show ((s.tasks.schedule t).tasks t').stmts = _ from (saveContext_task s.tasks t').1]
    exact h.leaves hleave t' l rest
  refine ⟨h.sound.schedule hrests howns t, fun t' l hl => h.remembers t' l ?_,
    fun l rest hrest => absurd hrest (hstmts t l rest), fun t' _ l rest => hstmts t' l rest⟩
  obtain ⟨hsame, hheld⟩ := saveContext_task s.tasks t'
  unfold LockTask.outermost at hl ⊢
  rwa [show ((s.tasks.schedule t).tasks t').stmts = _ from hsame,
    show ((s.tasks.schedule t).tasks t').held = _ from hheld] at hl

theorem Kept.kill (h : s.Kept) {l : ι} (hl : s.tasks.running.held ⊆ [l]) (t : τ) :
    Kept ⟨s.tasks.kill l t, s.found⟩ := by
  have howns := h.sound.stands.owns.unlock_only hl
  have hgone : LockState.Stands _ (LockTask.mk [] [] s.tasks.running.flags).stmts [] :=
    Stands.between [] howns (Option.some_ne_none [])
  have hkilled : Kept ⟨(s.tasks.setCpu (s.tasks.cpu.setLock l
      { s.tasks.cpu.locks l with locked := false })).setRunning ⟨[], [], s.tasks.running.flags⟩,
      s.found⟩ := by
    refine ⟨h.sound.goes_on hgone, fun t' l' hl' => ?_, fun l' rest hrest => ?_, fun t' ht' => ?_⟩
    · have hunlock : s.tasks.cpu.exec 0 (.unlock l) = some _ := rfl
      refine (exec_restore hunlock (by simp)).trans (h.remembers t' l' ?_)
      by_cases ht' : t' = s.tasks.current
      · subst ht'
        rw [goes_on_current] at hl'
        cases hl'
      · rwa [goes_on_other s.tasks _ _ ht'] at hl'
    · rw [LockTasks.setRunning_running] at hrest
      cases hrest
    · rw [goes_on_other s.tasks _ _ ht']
      exact h.rests t' ht'
  exact hkilled.schedule (Or.inr ⟨by simp, by simp⟩) t

theorem Kept.call (h : s.Kept) {ops : List (LockOp ι)}
    (hops : holding s.tasks.running.held ops ≠ none) :
    Kept ⟨s.tasks.setRunning { s.tasks.running with stmts := ops.flatMap LockOp.stmts }, s.found⟩ := by
  refine ⟨h.sound.goes_on (Stands.between ops h.sound.stands.owns hops), fun t l hl => ?_,
    fun l rest hrest => ?_, fun t ht => ?_⟩
  · refine h.remembers t l ?_
    by_cases ht : t = s.tasks.current
    · subst ht
      rw [show (s.tasks.setRunning _).tasks s.tasks.current = _ from
        LockTasks.setRunning_running s.tasks _] at hl
      have hlast := LockTask.outermost_between hl
      have hne : s.tasks.running.held ≠ [] := by
        intro hnil
        rw [hnil] at hlast
        cases hlast
      exact (LockTask.outermost_held hne).trans hlast
    · rwa [LockTasks.setRunning_other _ _ ht] at hl
  · rw [LockTasks.setRunning_running] at hrest
    exact absurd hrest LockTask.between_ne_restore
  · rw [LockTasks.setRunning_other s.tasks _ ht]
    exact h.rests t ht

theorem Kept.interrupt (h : s.Kept) {ops : List (LockOp ι)} (ha : s.tasks.Allowed (.interrupt ops))
    (hm : s.InTurn (.interrupt ops)) : ∃ s', s.move (.interrupt ops) = .ok s' ∧ s'.Kept := by
  obtain ⟨tasks, hmove, hsound⟩ := h.sound.move ha
  refine ⟨_, move_ok hmove, ?_⟩
  have hhandler : s.tasks.interrupt ops = .ok tasks := hmove
  unfold LockTasks.interrupt at hhandler
  cases hrun : s.tasks.cpu.disableInterrupts.execAll 0 (ops.flatMap LockOp.stmts) with
  | none =>
    rw [hrun] at hhandler
    cases hhandler
  | some cpu =>
    rw [hrun] at hhandler
    obtain rfl := Except.ok.inj hhandler
    refine ⟨hsound, fun t l hl => ?_, fun l rest hrest hheld => ?_, h.rests⟩
    · have hkept := execAll_restore hrun fun hmem => hm t l hl (save_mem_stmts hmem)
      exact hkept.trans (h.remembers t l hl)
    · exact h.off l rest hrest hheld

theorem Kept.move (h : s.Kept) (ha : s.tasks.Allowed m) (hm : s.InTurn m) :
    ∃ s', s.move m = .ok s' ∧ s'.Kept := by
  cases m with
  | call ops => exact ⟨_, rfl, h.call ha.2⟩
  | statement => exact h.statement hm
  | setFlags flags =>
    obtain ⟨tasks, hmove, hsound⟩ := h.sound.move ha
    refine ⟨_, move_ok hmove, ?_⟩
    obtain rfl := Except.ok.inj hmove
    refine ⟨hsound, h.remembers, fun l rest hrest => ?_, h.rests⟩
    cases hrest.symm.trans ha.1
  | schedule t => exact ⟨_, rfl, h.schedule ha t⟩
  | kill l t => exact ⟨_, rfl, h.kill ha.2 t⟩
  | interrupt ops => exact h.interrupt ha hm

/-- Where lock operations come in turn, the last statement of an outermost `release` leaves the
interrupt flag as the first one of the outermost `acquire` found it. -/
theorem restores_flag (s : FlaggedTasks ι τ) (hfree : ∀ l, (s.tasks.cpu.locks l).locked = false)
    (hidle : ∀ t, (s.tasks.tasks t).stmts = [] ∧ (s.tasks.tasks t).held = [])
    {moves : List (LockMove ι τ)} (h : Ahead move (fun s m => s.tasks.Allowed m ∧ s.InTurn m) s moves) :
    ∃ s', run move s moves = .ok s' ∧ ∀ l rest, s'.tasks.running.stmts = .restoreInterrupts l :: rest →
      s'.tasks.running.held = [] → ∃ s'', s'.move .statement = .ok s'' ∧
        s''.tasks.cpu.interruptsEnabled = s'.found s'.tasks.current := by
  have hstart : s.Kept := by
    refine ⟨LockTasks.start_sound hfree hidle, fun t l hl => ?_, fun l rest hrest => ?_,
      fun t _ l rest hrest => ?_⟩
    · unfold LockTask.outermost at hl
      rw [(hidle t).1, (hidle t).2] at hl
      cases hl
    · cases hrest.symm.trans (hidle s.tasks.current).1
    · cases hrest.symm.trans (hidle t).1
  obtain ⟨s', hrun, hkept⟩ := h.progress (fun _ _ hs hm => hs.move hm.1 hm.2) hstart
  refine ⟨s', hrun, fun l rest hstmts hheld => ?_⟩
  have hexec : s'.tasks.cpu.exec 0 (.restoreInterrupts l) = some _ := rfl
  have hmove : s'.tasks.move .statement = _ := statement_ok hstmts hexec
  refine ⟨_, move_ok hmove, ?_⟩
  have hsaved : (s'.tasks.cpu.locks l).restoreInterrupts = s'.found s'.tasks.current := by
    refine hkept.remembers s'.tasks.current l ?_
    show LockTask.outermost s'.tasks.running = some l
    unfold LockTask.outermost
    rw [hheld, hstmts]
    rfl
  rw [← hsaved]
  show (if (s'.tasks.cpu.locks l).restoreInterrupts then s'.tasks.cpu.enableInterrupts
    else s'.tasks.cpu).interruptsEnabled = _
  split
  next hon => exact (enable_enabled _).trans hon.symm
  next hon => exact (hkept.off l rest hstmts hheld).trans (Bool.eq_false_iff.mpr hon).symm

def twoFlagged : FlaggedTasks Nat Bool := ⟨LockTasks.twoTasks, fun _ => false⟩

/-- A task is interrupted in the middle of `acquire`, and a handler takes the lock `l` meanwhile. -/
def overtaken (l : Nat) : List (LockMove Nat Bool) :=
  [.call [.acquire 1, .release 1], .statement, .interrupt [.acquire l, .release l], .statement,
    .statement, .statement]

theorem overtaken_inTurn : Ahead move (fun s m => s.tasks.Allowed m ∧ s.InTurn m) twoFlagged
    (overtaken 2) := by
  refine ⟨⟨⟨rfl, by decide⟩, trivial⟩, fun called hcall => ?_⟩
  obtain rfl := Except.ok.inj hcall
  refine ⟨⟨trivial, fun t ht => ?_⟩, fun saved hsave => ?_⟩
  · cases t with
    | false => exact absurd rfl ht
    | true => exact fun h => by cases h
  obtain rfl := Except.ok.inj hsave
  refine ⟨⟨⟨by decide, by decide⟩, fun t l hl => ?_⟩, fun handled hhandler => ?_⟩
  · cases t with
    | false =>
      obtain rfl := Option.some.inj hl
      simp
    | true => cases hl
  obtain rfl := Except.ok.inj hhandler
  refine ⟨⟨trivial, trivial⟩, fun disabled hdisable => ?_⟩
  obtain rfl := Except.ok.inj hdisable
  refine ⟨⟨trivial, trivial⟩, fun taken htake => ?_⟩
  obtain rfl := Except.ok.inj htake
  exact ⟨⟨trivial, List.cons_ne_nil 1 []⟩, fun _ _ => trivial⟩

theorem restores_flag_overtaken : ∃ s', run move twoFlagged (overtaken 2) = .ok s' ∧
    ∀ l rest, s'.tasks.running.stmts = .restoreInterrupts l :: rest → s'.tasks.running.held = [] →
      ∃ s'', s'.move .statement = .ok s'' ∧
        s''.tasks.cpu.interruptsEnabled = s'.found s'.tasks.current :=
  restores_flag twoFlagged (fun _ => rfl) (fun _ => ⟨rfl, rfl⟩) overtaken_inTurn

-- A handler that takes the same lock overwrites the flag, and interrupts stay off.
example : (run move twoFlagged (overtaken 1 ++ [.statement])).toOption.map
    (fun s => (s.tasks.cpu.interruptsEnabled, s.found false)) = some (false, true) := by
  decide

end FlaggedTasks

end UmbraOS
