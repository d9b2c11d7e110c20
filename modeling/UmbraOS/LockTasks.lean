import UmbraOS.Runs
import UmbraOS.Spinlock

namespace UmbraOS

/-- The statements on locks a task has still to run, the locks it has taken, the newest first, and its
flags while it is not running. -/
structure LockTask (ι : Type) where
  stmts : List (LockStmt ι)
  held : List ι
  flags : BitVec 64

/-- Tasks that share the CPU. -/
structure LockTasks (ι τ : Type) where
  cpu : LockState ι
  tasks : τ → LockTask ι
  current : τ

/-- A task comes to calls of `acquire` and `release`, runs a statement of them, or sets its flags; the
scheduler goes on to a task, also when the running one is killed and its address space destroyed with the
lock `l`; a handler runs from its start to its end. -/
inductive LockMove (ι τ : Type)
  | call (ops : List (LockOp ι))
  | statement
  | setFlags (flags : BitVec 64)
  | schedule (t : τ)
  | kill (l : ι) (t : τ)
  | interrupt (ops : List (LockOp ι))

def LockStmt.held {ι : Type} [DecidableEq ι] : LockStmt ι → List ι → List ι
  | .spin l, held => l :: held
  | .unlock l, held => held.erase l
  | _, held => held

namespace LockState

variable {ι : Type}

/-- The locks `held` are those that are locked. Interrupts are off for as long as there is one, and only
the oldest one may turn them on. -/
structure Owns (s : LockState ι) (held : List ι) : Prop where
  locked : ∀ l, (s.locks l).locked = true ↔ l ∈ held
  nodup : held.Nodup
  off : held ≠ [] → s.interruptsEnabled = false
  saved : ∀ newer l older, held = newer ++ l :: older → older ≠ [] → (s.locks l).restoreInterrupts = false

/-- The locks that a task holds after calls. A task that holds none may release one all the same:
`UdpSocket::recv_msg` does so when it had to wait for a packet. -/
def holding [DecidableEq ι] : List ι → List (LockOp ι) → Option (List ι)
  | held, [] => some held
  | held, .acquire l :: ops => if l ∈ held then none else holding (l :: held) ops
  | [], .release _ :: ops => holding [] ops
  | top :: held, .release l :: ops => if top = l then holding held ops else none

/-- Where a task may be that holds the locks `held`. -/
inductive Stands [DecidableEq ι] (s : LockState ι) : List (LockStmt ι) → List ι → Prop
  | between {held : List ι} (ops : List (LockOp ι)) (howns : s.Owns held)
      (hops : holding held ops ≠ none) : Stands s (ops.flatMap LockOp.stmts) held
  | disables {held : List ι} (l : ι) (ops : List (LockOp ι)) (howns : s.Owns held) (hl : l ∉ held)
      (hsaved : held ≠ [] → (s.locks l).restoreInterrupts = false)
      (hops : holding (l :: held) ops ≠ none) :
      Stands s (.disableInterrupts :: .spin l :: ops.flatMap LockOp.stmts) held
  | spins {held : List ι} (l : ι) (ops : List (LockOp ι)) (howns : s.Owns held) (hl : l ∉ held)
      (hsaved : held ≠ [] → (s.locks l).restoreInterrupts = false)
      (hops : holding (l :: held) ops ≠ none) (hoff : s.interruptsEnabled = false) :
      Stands s (.spin l :: ops.flatMap LockOp.stmts) held
  | restores {held : List ι} (l : ι) (ops : List (LockOp ι)) (howns : s.Owns held)
      (hsaved : held ≠ [] → (s.locks l).restoreInterrupts = false)
      (hops : holding held ops ≠ none) :
      Stands s (.restoreInterrupts l :: ops.flatMap LockOp.stmts) held

variable {s s' : LockState ι} {held : List ι} {l : ι}

theorem owns_nil (h : ∀ l, (s.locks l).locked = false) : s.Owns [] where
  locked l := by simp [h]
  nodup := List.nodup_nil
  off hne := absurd rfl hne
  saved newer l older hsplit := by simp at hsplit

theorem Owns.free (h : s.Owns held) (hl : l ∉ held) : (s.locks l).locked = false := by
  rw [← Bool.not_eq_true, h.locked]
  exact hl

theorem Owns.guarded (h : s.Owns held) : s.Guarded := by
  intro hlocked
  obtain ⟨l, hl⟩ := hlocked
  exact h.off (List.ne_nil_of_mem ((h.locked l).mp hl))

/-- Only the locks count, and the interrupt flag where one is held. -/
theorem Owns.congr (h : s.Owns held) (hlocks : s'.locks = s.locks)
    (hoff : held ≠ [] → s'.interruptsEnabled = false) : s'.Owns held where
  locked l := by rw [hlocks, h.locked]
  nodup := h.nodup
  off := hoff
  saved newer l older hsplit hne := by rw [hlocks, h.saved newer l older hsplit hne]

variable [DecidableEq ι]

theorem Owns.save (h : s.Owns held) (hl : l ∉ held) (flag : Bool) :
    (s.setLock l { s.locks l with restoreInterrupts := flag }).Owns held where
  locked l' := by
    rw [← h.locked]
    by_cases hne : l' = l
    · rw [hne, setLock_same]
    · rw [setLock_other _ _ hne]
  nodup := h.nodup
  off := h.off
  saved newer l' older hsplit hne := by
    rw [setLock_other _ _ (ne_of_not_mem hl hsplit)]
    exact h.saved newer l' older hsplit hne

theorem Owns.take (h : s.Owns held) (hl : l ∉ held) (hoff : s.interruptsEnabled = false)
    (hsaved : held ≠ [] → (s.locks l).restoreInterrupts = false) :
    (s.setLock l { s.locks l with locked := true }).Owns (l :: held) where
  locked l' := by
    by_cases hne : l' = l
    · rw [hne, setLock_same]
      simp
    · rw [setLock_other _ _ hne, List.mem_cons, or_iff_right hne, h.locked]
  nodup := List.nodup_cons.mpr ⟨hl, h.nodup⟩
  off _ := hoff
  saved newer l' older hsplit hne := by
    cases newer with
    | nil =>
      obtain ⟨rfl, rfl⟩ := List.cons.inj hsplit
      rw [setLock_same]
      exact hsaved hne
    | cons top newer =>
      obtain ⟨rfl, hrest⟩ := List.cons.inj hsplit
      rw [setLock_other _ _ (ne_of_not_mem hl hrest)]
      exact h.saved newer l' older hrest hne

theorem Owns.unlock (h : s.Owns (l :: held)) :
    (s.setLock l { s.locks l with locked := false }).Owns held := by
  have hl : l ∉ held := (List.nodup_cons.mp h.nodup).1
  refine ⟨fun l' => ?_, (List.nodup_cons.mp h.nodup).2, fun _ => h.off (List.cons_ne_nil l held), ?_⟩
  · by_cases hne : l' = l
    · rw [hne, setLock_same]
      simpa using hl
    · rw [setLock_other _ _ hne, h.locked, List.mem_cons, or_iff_right hne]
  · intro newer l' older hsplit hne
    rw [setLock_other _ _ (ne_of_not_mem hl hsplit)]
    exact h.saved (l :: newer) l' older (by rw [hsplit]; rfl) hne

/-- No lock is locked when the only one that may be is unlocked. -/
theorem Owns.unlock_only (h : s.Owns held) (hheld : held ⊆ [l]) :
    (s.setLock l { s.locks l with locked := false }).Owns [] := by
  refine owns_nil fun l' => ?_
  by_cases hne : l' = l
  · rw [hne, setLock_same]
  · rw [setLock_other _ _ hne]
    exact h.free fun hl' => hne (List.mem_singleton.mp (hheld hl'))

omit [DecidableEq ι] in
theorem Owns.restore (h : s.Owns held) (hsaved : held ≠ [] → (s.locks l).restoreInterrupts = false) :
    (if (s.locks l).restoreInterrupts then s.enableInterrupts else s).Owns held := by
  split
  next hon => exact h.congr rfl fun hne => absurd hon (by rw [hsaved hne]; simp)
  next => exact h

theorem Stands.owns {stmts : List (LockStmt ι)} (h : s.Stands stmts held) : s.Owns held := by
  cases h with
  | between _ howns => exact howns
  | disables _ _ howns => exact howns
  | spins _ _ howns => exact howns
  | restores _ _ howns => exact howns

/-- The first statement of the next operation. -/
theorem Owns.begins (howns : s.Owns held) {ops : List (LockOp ι)} (hops : holding held ops ≠ none)
    {stmt : LockStmt ι} {rest : List (LockStmt ι)} (hnext : ops.flatMap LockOp.stmts = stmt :: rest) :
    ∃ s', s.exec 0 stmt = some s' ∧ s'.Stands rest (stmt.held held) := by
  cases ops with
  | nil => cases hnext
  | cons op ops =>
    rw [List.flatMap_cons] at hnext
    cases op with
    | acquire l =>
      obtain ⟨rfl, rfl⟩ := List.cons.inj hnext
      unfold holding at hops
      split at hops
      next => exact absurd rfl hops
      next hl =>
        refine ⟨_, rfl, Stands.disables l ops (howns.save hl _) hl (fun hne => ?_) hops⟩
        rw [setLock_same]
        exact howns.off hne
    | release l =>
      obtain ⟨rfl, rfl⟩ := List.cons.inj hnext
      cases held with
      | nil =>
        have hnone := howns.unlock_only (List.nil_subset [l])
        exact ⟨_, rfl, Stands.restores l ops hnone (fun hne => absurd rfl hne) hops⟩
      | cons top held =>
        unfold holding at hops
        split at hops
        next htop =>
          subst htop
          refine ⟨_, rfl, ?_⟩
          rw [LockStmt.held, List.erase_cons_head]
          refine Stands.restores top ops howns.unlock (fun hne => ?_) hops
          rw [setLock_same]
          exact howns.saved [] top held rfl hne
        next => exact absurd rfl hops

/-- The next statement of the running task never waits. -/
theorem Stands.exec {stmt : LockStmt ι} {rest : List (LockStmt ι)} (h : s.Stands (stmt :: rest) held) :
    ∃ s', s.exec 0 stmt = some s' ∧ s'.Stands rest (stmt.held held) := by
  generalize hstmts : stmt :: rest = stmts at h
  cases h with
  | between ops howns hops => exact howns.begins hops hstmts.symm
  | disables l ops howns hl hsaved hops =>
    obtain ⟨rfl, rfl⟩ := List.cons.inj hstmts
    have hdisabled : s.disableInterrupts.Owns held := howns.congr rfl fun _ => disable_enabled s
    exact ⟨_, rfl, Stands.spins l ops hdisabled hl hsaved hops (disable_enabled s)⟩
  | spins l ops howns hl hsaved hops hoff =>
    obtain ⟨rfl, rfl⟩ := List.cons.inj hstmts
    exact ⟨_, spin_free (howns.free hl) 0, Stands.between ops (howns.take hl hoff hsaved) hops⟩
  | restores l ops howns hsaved hops =>
    obtain ⟨rfl, rfl⟩ := List.cons.inj hstmts
    exact ⟨_, rfl, Stands.between ops (howns.restore hsaved) hops⟩

end LockState

namespace LockTask

open LockState

variable {ι : Type} [DecidableEq ι]

/-- A task that is not running holds no lock, and goes on wherever no lock is held. -/
structure Rests (task : LockTask ι) : Prop where
  held : task.held = []
  stands : ∀ s : LockState ι, s.Owns [] → s.Stands task.stmts []

/-- A task rests when it is interrupted, and when it gives way without a lock. -/
theorem rests_of_stands {s : LockState ι} {task : LockTask ι} (h : s.Stands task.stmts task.held)
    (hleave : s.interruptsEnabled = true ∨ task.stmts = [] ∧ task.held = []) : task.Rests := by
  obtain ⟨stmts, held, flags⟩ := task
  have hnone : held = [] := by
    rcases hleave with hon | hdone
    · by_contra hne
      rw [h.owns.off hne] at hon
      cases hon
    · exact hdone.2
  subst hnone
  refine ⟨rfl, fun s' hs' => ?_⟩
  cases h with
  | between ops _ hops => exact Stands.between ops hs' hops
  | disables l ops _ hl _ hops => exact Stands.disables l ops hs' hl (fun hne => absurd rfl hne) hops
  | spins l ops _ _ _ _ hoff =>
    -- interrupts are off here, and the call is not over
    have hon := hleave.resolve_right fun hdone => List.cons_ne_nil _ _ hdone.1
    rw [hoff] at hon
    cases hon
  | restores l ops _ _ hops => exact Stands.restores l ops hs' (fun hne => absurd rfl hne) hops

end LockTask

namespace LockTasks

open LockState

variable {ι τ : Type} [DecidableEq ι] [DecidableEq τ]

def running (s : LockTasks ι τ) : LockTask ι := s.tasks s.current

def setRunning (s : LockTasks ι τ) (task : LockTask ι) : LockTasks ι τ :=
  { s with tasks := Function.update s.tasks s.current task }

def setCpu (s : LockTasks ι τ) (cpu : LockState ι) : LockTasks ι τ := { s with cpu := cpu }

/-- Whoever waits for a lock waits with interrupts off, so that nobody else runs. -/
def orWaits {α : Type} : Option α → Except Trap α
  | some a => .ok a
  | none => .error .timeout

def statement (s : LockTasks ι τ) : Except Trap (LockTasks ι τ) :=
  match s.running.stmts with
  | [] => .ok s
  | stmt :: rest => do
    let cpu ← orWaits (s.cpu.exec 0 stmt)
    return (s.setCpu cpu).setRunning ⟨rest, stmt.held s.running.held, s.running.flags⟩

def saveContext (s : LockTasks ι τ) : LockTasks ι τ :=
  s.setRunning ⟨s.running.stmts, s.running.held, s.cpu.flags⟩

def schedule (s : LockTasks ι τ) (t : τ) : LockTasks ι τ :=
  ⟨{ s.cpu with flags := (s.saveContext.tasks t).flags }, s.saveContext.tasks, t⟩

/-- The lock is what the constructor of the next address space makes of it. -/
def kill (s : LockTasks ι τ) (l : ι) (t : τ) : LockTasks ι τ :=
  let cpu := s.cpu.setLock l { s.cpu.locks l with locked := false }
  ((s.setCpu cpu).setRunning ⟨[], [], s.running.flags⟩).schedule t

def interrupt (s : LockTasks ι τ) (ops : List (LockOp ι)) : Except Trap (LockTasks ι τ) := do
  let cpu ← orWaits (s.cpu.disableInterrupts.execAll 0 (ops.flatMap LockOp.stmts))
  return s.setCpu { cpu with flags := s.cpu.flags }

def move (s : LockTasks ι τ) : LockMove ι τ → Except Trap (LockTasks ι τ)
  | .call ops => .ok (s.setRunning { s.running with stmts := ops.flatMap LockOp.stmts })
  | .statement => s.statement
  | .setFlags flags => .ok (s.setCpu { s.cpu with flags := flags })
  | .schedule t => .ok (s.schedule t)
  | .kill l t => .ok (s.kill l t)
  | .interrupt ops => s.interrupt ops

/-- A task gives way when it is interrupted, or where it holds no lock; one that is killed holds the lock
of its address space. -/
def Allowed (s : LockTasks ι τ) : LockMove ι τ → Prop
  | .call ops => s.running.stmts = [] ∧ holding s.running.held ops ≠ none
  | .statement => True
  | .setFlags _ => s.running.stmts = [] ∧ s.running.held = []
  | .schedule _ => s.cpu.interruptsEnabled = true ∨ s.running.stmts = [] ∧ s.running.held = []
  | .kill l _ => s.running.stmts = [] ∧ s.running.held ⊆ [l]
  | .interrupt ops => s.cpu.interruptsEnabled = true ∧ heldAfter [] ops = some []

structure Sound (s : LockTasks ι τ) : Prop where
  stands : s.cpu.Stands s.running.stmts s.running.held
  rests : ∀ t, t ≠ s.current → (s.tasks t).Rests

variable {s s' : LockTasks ι τ}

omit [DecidableEq ι] in
@[simp] theorem setRunning_running (s : LockTasks ι τ) (task : LockTask ι) :
    (s.setRunning task).running = task := Function.update_self ..

omit [DecidableEq ι] in
theorem setRunning_other (s : LockTasks ι τ) (task : LockTask ι) {t : τ} (h : t ≠ s.current) :
    (s.setRunning task).tasks t = s.tasks t := Function.update_of_ne h ..

omit [DecidableEq τ] in
/-- Nothing is locked when the running task is interrupted or gives way. -/
theorem Sound.leaves (h : s.Sound)
    (hleave : s.cpu.interruptsEnabled = true ∨ s.running.stmts = [] ∧ s.running.held = []) :
    s.running.Rests ∧ s.cpu.Owns [] := by
  have hrests := LockTask.rests_of_stands h.stands hleave
  have howns := h.stands.owns
  rw [hrests.held] at howns
  exact ⟨hrests, howns⟩

/-- A move of the running task leaves the others where they rest. -/
theorem Sound.goes_on (h : s.Sound) {cpu : LockState ι} {task : LockTask ι}
    (hstands : cpu.Stands task.stmts task.held) : ((s.setCpu cpu).setRunning task).Sound where
  stands := by
    rw [setRunning_running]
    exact hstands
  rests t ht := by
    rw [setRunning_other (s.setCpu cpu) task ht]
    exact h.rests t ht

omit [DecidableEq τ] in
theorem Sound.interrupted (h : s.Sound) {cpu : LockState ι} (hrests : s.running.Rests)
    (hcpu : cpu.Owns []) : (s.setCpu cpu).Sound where
  stands := by
    have hstands := hrests.stands cpu hcpu
    rwa [← hrests.held] at hstands
  rests := h.rests

/-- A handler finds every lock free and leaves every lock free. -/
theorem handler_owns {cpu : LockState ι} (h : cpu.Owns []) {ops : List (LockOp ι)}
    (hops : heldAfter [] ops = some []) (flags : BitVec 64) : ∃ cpu',
    cpu.disableInterrupts.execAll 0 (ops.flatMap LockOp.stmts) = some cpu' ∧
      LockState.Owns { cpu' with flags := flags } [] := by
  have hfree : ∀ l, (cpu.disableInterrupts.locks l).locked = false := fun l => h.free List.not_mem_nil
  obtain ⟨-, cpu', hrun, hend⟩ := (free_holds hfree).run hops
  refine ⟨cpu', hrun, owns_nil fun l => ?_⟩
  rw [← Bool.not_eq_true]
  intro hlocked
  cases (hend.locked l).mp hlocked

theorem Sound.schedule (h : s.Sound) (hrests : s.running.Rests) (howns : s.cpu.Owns []) (t : τ) :
    (s.schedule t).Sound := by
  have hall : ∀ t', (s.saveContext.tasks t').Rests := by
    intro t'
    by_cases ht : t' = s.current
    · have hsaved : s.saveContext.running.Rests := by
        unfold saveContext
        rw [setRunning_running]
        exact ⟨hrests.held, hrests.stands⟩
      rwa [ht]
    · rw [saveContext, setRunning_other _ _ ht]
      exact h.rests t' ht
  refine ⟨?_, fun t' _ => hall t'⟩
  have hcpu : (s.schedule t).cpu.Owns [] := howns.congr rfl fun hne => absurd rfl hne
  have hstands := (hall t).stands (s.schedule t).cpu hcpu
  rwa [← (hall t).held] at hstands

theorem Sound.statement (h : s.Sound) : ∃ s', s.statement = .ok s' ∧ s'.Sound := by
  have hstands := h.stands
  unfold LockTasks.statement
  split
  next => exact ⟨s, rfl, h⟩
  next stmt rest hstmts =>
    rw [hstmts] at hstands
    obtain ⟨cpu, hexec, hnext⟩ := hstands.exec
    rw [hexec]
    exact ⟨_, rfl, h.goes_on hnext⟩

theorem Sound.move (h : s.Sound) {m : LockMove ι τ} (hm : s.Allowed m) :
    ∃ s', s.move m = .ok s' ∧ s'.Sound := by
  cases m with
  | call ops => exact ⟨_, rfl, h.goes_on (Stands.between ops h.stands.owns hm.2)⟩
  | statement => exact h.statement
  | setFlags flags =>
    obtain ⟨hrests, howns⟩ := h.leaves (Or.inr hm)
    exact ⟨_, rfl, h.interrupted hrests (howns.congr rfl fun hne => absurd rfl hne)⟩
  | schedule t =>
    obtain ⟨hrests, howns⟩ := h.leaves hm
    exact ⟨_, rfl, h.schedule hrests howns t⟩
  | kill l t =>
    have howns := h.stands.owns.unlock_only hm.2
    have hgone : LockState.Stands _ (LockTask.mk [] [] s.running.flags).stmts [] :=
      Stands.between [] howns (Option.some_ne_none [])
    have hkilled := h.goes_on hgone
    obtain ⟨hrests, hfree⟩ := hkilled.leaves (Or.inr ⟨by simp, by simp⟩)
    exact ⟨_, rfl, hkilled.schedule hrests hfree t⟩
  | interrupt ops =>
    obtain ⟨hon, hops⟩ := hm
    obtain ⟨hrests, howns⟩ := h.leaves (Or.inl hon)
    obtain ⟨cpu, hrun, hcpu⟩ := handler_owns howns hops s.cpu.flags
    have hmove : s.move (.interrupt ops) = .ok (s.setCpu { cpu with flags := s.cpu.flags }) := by
      rw [LockTasks.move, LockTasks.interrupt, hrun]
      rfl
    exact ⟨_, hmove, h.interrupted hrests hcpu⟩

omit [DecidableEq τ] in
theorem start_sound (hfree : ∀ l, (s.cpu.locks l).locked = false)
    (hidle : ∀ t, (s.tasks t).stmts = [] ∧ (s.tasks t).held = []) : s.Sound := by
  have hrests : ∀ t, (s.tasks t).Rests := by
    intro t
    refine ⟨(hidle t).2, fun cpu hcpu => ?_⟩
    rw [(hidle t).1]
    exact Stands.between [] hcpu (Option.some_ne_none [])
  refine ⟨?_, fun t _ => hrests t⟩
  have hstands := (hrests s.current).stands s.cpu (owns_nil hfree)
  rwa [← (hrests s.current).held] at hstands

/-- A task that is not running never holds a lock, so that neither a task nor an interrupt handler ever
waits for one. -/
theorem only_running_holds (s : LockTasks ι τ) (hfree : ∀ l, (s.cpu.locks l).locked = false)
    (hidle : ∀ t, (s.tasks t).stmts = [] ∧ (s.tasks t).held = []) {moves : List (LockMove ι τ)}
    (h : Ahead move Allowed s moves) : ∃ s', run move s moves = .ok s' ∧
      (∀ l, (s'.cpu.locks l).locked = true ↔ l ∈ (s'.tasks s'.current).held) ∧
      (∀ t, t ≠ s'.current → (s'.tasks t).held = []) ∧
      ((∃ l, (s'.cpu.locks l).locked = true) → s'.cpu.interruptsEnabled = false) := by
  obtain ⟨s', hrun, hsound⟩ := h.progress (fun _ _ hs hm => hs.move hm) (start_sound hfree hidle)
  exact ⟨s', hrun, hsound.stands.owns.locked, fun t ht => (hsound.rests t ht).held,
    hsound.stands.owns.guarded⟩

def twoTasks : LockTasks Nat Bool := ⟨interruptible, fun _ => ⟨[], [], 0x202#64⟩, false⟩

/-- A task is interrupted in the middle of `acquire`, a handler takes the lock meanwhile, and the other
task is killed. -/
def interruptedAcquire : List (LockMove Nat Bool) :=
  [.call [.acquire 1, .release 1, .release 1], .statement, .schedule true,
    .interrupt [.acquire 1, .release 1], .call [.acquire 2], .statement, .statement, .statement,
    .kill 2 false, .statement, .statement]

theorem interruptedAcquire_allowed : Ahead move Allowed twoTasks interruptedAcquire := by
  refine ⟨⟨rfl, by decide⟩, fun called hcall => ?_⟩
  obtain rfl := Except.ok.inj hcall
  refine ⟨trivial, fun saved hsave => ?_⟩
  obtain rfl := Except.ok.inj hsave
  refine ⟨Or.inl (by decide), fun other hother => ?_⟩
  obtain rfl := Except.ok.inj hother
  refine ⟨⟨by decide, by decide⟩, fun handled hhandler => ?_⟩
  obtain rfl := Except.ok.inj hhandler
  refine ⟨⟨rfl, by decide⟩, fun destroying hdestroy => ?_⟩
  obtain rfl := Except.ok.inj hdestroy
  refine ⟨trivial, fun s₁ h₁ => ?_⟩
  obtain rfl := Except.ok.inj h₁
  refine ⟨trivial, fun s₂ h₂ => ?_⟩
  obtain rfl := Except.ok.inj h₂
  refine ⟨trivial, fun s₃ h₃ => ?_⟩
  obtain rfl := Except.ok.inj h₃
  exact ⟨⟨rfl, List.Subset.refl [2]⟩, fun _ _ => ⟨trivial, fun _ _ => ⟨trivial, fun _ _ => trivial⟩⟩⟩

theorem only_running_holds_interrupted : ∃ s', run move twoTasks interruptedAcquire = .ok s' ∧
    (∀ l, (s'.cpu.locks l).locked = true ↔ l ∈ (s'.tasks s'.current).held) ∧
    (∀ t, t ≠ s'.current → (s'.tasks t).held = []) ∧
    ((∃ l, (s'.cpu.locks l).locked = true) → s'.cpu.interruptsEnabled = false) :=
  only_running_holds twoTasks (fun _ => rfl) (fun _ => ⟨rfl, rfl⟩) interruptedAcquire_allowed

end LockTasks

end UmbraOS
