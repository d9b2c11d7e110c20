import Mathlib.Data.List.Basic
import Mathlib.Logic.Function.Basic

namespace UmbraOS

structure Spinlock where
  locked : Bool
  restoreInterrupts : Bool

/-- The flags register of the CPU, and the locks of the kernel. -/
structure LockState (ι : Type) where
  flags : BitVec 64
  locks : ι → Spinlock

inductive LockOp (ι : Type)
  | acquire (l : ι)
  | release (l : ι)

/-- The statements of `acquire` and `release`. -/
inductive LockStmt (ι : Type)
  | saveInterrupts (l : ι)
  | disableInterrupts
  | spin (l : ι)
  | unlock (l : ι)
  | restoreInterrupts (l : ι)

def LockOp.stmts {ι : Type} : LockOp ι → List (LockStmt ι)
  | .acquire l => [.saveInterrupts l, .disableInterrupts, .spin l]
  | .release l => [.unlock l, .restoreInterrupts l]

namespace LockState

variable {ι : Type}

def interruptsFlag : BitVec 64 := 1#64 <<< 9

def interruptsEnabled (s : LockState ι) : Bool := s.flags &&& interruptsFlag ≠ 0#64

def disableInterrupts (s : LockState ι) : LockState ι :=
  { s with flags := s.flags &&& ~~~interruptsFlag }

def enableInterrupts (s : LockState ι) : LockState ι := { s with flags := s.flags ||| interruptsFlag }

variable [DecidableEq ι]

def setLock (s : LockState ι) (l : ι) (lock : Spinlock) : LockState ι :=
  { s with locks := Function.update s.locks l lock }

def testAndSet (s : LockState ι) (l : ι) : Bool × LockState ι :=
  ((s.locks l).locked, s.setLock l { s.locks l with locked := true })

/-- The loop of `acquire`, with the number of pauses it may make; nobody else runs in between. -/
def spin (l : ι) : Nat → LockState ι → Option (LockState ι)
  | 0, s =>
    let (held, s) := s.testAndSet l
    if held then none else some s
  | pauses + 1, s =>
    let (held, s) := s.testAndSet l
    if held then spin l pauses s else some s

def exec (pauses : Nat) (s : LockState ι) : LockStmt ι → Option (LockState ι)
  | .saveInterrupts l =>
    some (s.setLock l { s.locks l with restoreInterrupts := s.interruptsEnabled })
  | .disableInterrupts => some s.disableInterrupts
  | .spin l => s.spin l pauses
  | .unlock l => some (s.setLock l { s.locks l with locked := false })
  | .restoreInterrupts l => some (if (s.locks l).restoreInterrupts then s.enableInterrupts else s)

def execAll (pauses : Nat) (s : LockState ι) (stmts : List (LockStmt ι)) : Option (LockState ι) :=
  stmts.foldlM (exec pauses) s

/-- The locks that are held after properly nested operations, the newest first. -/
def heldAfter : List ι → List (LockOp ι) → Option (List ι)
  | held, [] => some held
  | held, .acquire l :: ops => if l ∈ held then none else heldAfter (l :: held) ops
  | [], .release _ :: _ => none
  | top :: held, .release l :: ops => if top = l then heldAfter held ops else none

/-- Whoever holds a lock is not interrupted. -/
def Guarded (s : LockState ι) : Prop :=
  (∃ l, (s.locks l).locked = true) → s.interruptsEnabled = false

/-- The locks `held` were taken when the interrupt flag was `flag`: the oldest one remembers it,
and the others that interrupts were off. -/
structure Holds (s : LockState ι) (flag : Bool) (held : List ι) : Prop where
  locked : ∀ l, (s.locks l).locked = true ↔ l ∈ held
  nodup : held.Nodup
  enabled : s.interruptsEnabled = (held.isEmpty && flag)
  saved : ∀ newer l older, held = newer ++ l :: older →
    (s.locks l).restoreInterrupts = (older.isEmpty && flag)

variable {s : LockState ι} {flag : Bool} {held : List ι} {l : ι}

omit [DecidableEq ι] in
theorem disable_enabled (s : LockState ι) : s.disableInterrupts.interruptsEnabled = false := by
  have hclear : s.flags &&& ~~~interruptsFlag &&& interruptsFlag = 0#64 := by
    rw [BitVec.and_assoc, BitVec.and_comm (~~~interruptsFlag), BitVec.and_not_self]
    exact BitVec.and_zero
  unfold interruptsEnabled disableInterrupts
  simp only [hclear, ne_eq, not_true_eq_false, decide_false]

omit [DecidableEq ι] in
theorem enable_enabled (s : LockState ι) : s.enableInterrupts.interruptsEnabled = true := by
  have hset : (s.flags ||| interruptsFlag).getLsbD 9 = true := by
    rw [BitVec.getLsbD_or, show interruptsFlag.getLsbD 9 = true by decide, Bool.or_true]
  unfold interruptsEnabled enableInterrupts
  rw [decide_eq_true_iff]
  intro hzero
  have hbit := congrArg (fun v => BitVec.getLsbD v 9) hzero
  simp only [BitVec.getLsbD_and, hset] at hbit
  exact absurd hbit (by decide)

theorem setLock_same (s : LockState ι) (l : ι) (lock : Spinlock) : (s.setLock l lock).locks l = lock := by
  simp only [setLock, Function.update_self]

theorem setLock_other (s : LockState ι) {l l' : ι} (lock : Spinlock) (h : l' ≠ l) :
    (s.setLock l lock).locks l' = s.locks l' := by
  simp only [setLock, Function.update_of_ne h]

/-- A lock that is held is never got by waiting for it. -/
theorem spin_locked (pauses : Nat) (h : (s.locks l).locked = true) : s.spin l pauses = none := by
  induction pauses generalizing s with
  | zero => simp only [spin, testAndSet, h, if_true]
  | succ pauses ih =>
    simp only [spin, testAndSet, h, if_true]
    apply ih
    rw [setLock_same]

theorem spin_free (h : (s.locks l).locked = false) (pauses : Nat) :
    s.spin l pauses = some (s.setLock l { s.locks l with locked := true }) := by
  cases pauses with
  | zero => simp only [spin, testAndSet, h, Bool.false_eq_true, if_false]
  | succ pauses => simp only [spin, testAndSet, h, Bool.false_eq_true, if_false]

omit [DecidableEq ι] in
theorem Holds.guarded (h : s.Holds flag held) : s.Guarded := by
  intro hlocked
  obtain ⟨l, hl⟩ := hlocked
  rw [h.locked] at hl
  rw [h.enabled]
  cases held with
  | nil => cases hl
  | cons top held => rfl

omit [DecidableEq ι] in
theorem ne_of_not_mem {l' : ι} {newer older : List ι} (hl : l ∉ held)
    (hsplit : held = newer ++ l' :: older) : l' ≠ l := by
  rintro rfl
  apply hl
  rw [hsplit]
  exact List.mem_append_right _ List.mem_cons_self

/-- The states of `acquire`, one after each of its statements. -/
theorem Holds.acquire (h : s.Holds flag held) (hl : l ∉ held) : ∃ s₁ s₂ s₃,
    s.exec 0 (.saveInterrupts l) = some s₁ ∧ s₁.exec 0 .disableInterrupts = some s₂ ∧
    s₂.exec 0 (.spin l) = some s₃ ∧ s₁.Guarded ∧ s₂.Guarded ∧ s₃.Holds flag (l :: held) := by
  have hfree : (s.locks l).locked = false := by
    rw [← Bool.not_eq_true, h.locked]
    exact hl
  have hsaved : ∀ l', ((s.setLock l { s.locks l with
      restoreInterrupts := s.interruptsEnabled }).locks l').locked = (s.locks l').locked := by
    intro l'
    by_cases hne : l' = l
    · rw [hne, setLock_same]
    · rw [setLock_other _ _ hne]
  refine ⟨_, _, _, rfl, rfl, spin_free ?_ 0, ?_, fun _ => disable_enabled _, ?_, ?_, ?_, ?_⟩
  · exact (hsaved l).trans hfree
  · intro hlocked
    obtain ⟨l', hl'⟩ := hlocked
    rw [hsaved] at hl'
    exact h.guarded ⟨l', hl'⟩
  · intro l'
    by_cases hne : l' = l
    · rw [hne, setLock_same]
      simp
    · rw [setLock_other _ _ hne, List.mem_cons, or_iff_right hne, ← h.locked]
      exact Bool.eq_iff_iff.mp (hsaved l')
  · exact List.nodup_cons.mpr ⟨hl, h.nodup⟩
  · exact disable_enabled _
  · intro newer l' older hsplit
    cases newer with
    | nil =>
      obtain ⟨rfl, rfl⟩ := List.cons.inj hsplit
      rw [setLock_same]
      exact (congrArg Spinlock.restoreInterrupts (setLock_same s l _)).trans h.enabled
    | cons top newer =>
      obtain ⟨rfl, hrest⟩ := List.cons.inj hsplit
      have hne : l' ≠ l := ne_of_not_mem hl hrest
      rw [setLock_other _ _ hne]
      exact (congrArg Spinlock.restoreInterrupts (setLock_other s _ hne)).trans
        (h.saved newer l' older hrest)

/-- The states of `release`. Only the oldest lock turns interrupts on again. -/
theorem Holds.release (h : s.Holds flag (l :: held)) : ∃ s₁ s₂,
    s.exec 0 (.unlock l) = some s₁ ∧ s₁.exec 0 (.restoreInterrupts l) = some s₂ ∧
    s₁.Guarded ∧ s₂.Holds flag held := by
  have hl : l ∉ held := (List.nodup_cons.mp h.nodup).1
  have hlocked : ∀ l', ((s.setLock l { s.locks l with locked := false }).locks l').locked = true ↔
      l' ∈ held := by
    intro l'
    by_cases hne : l' = l
    · rw [hne, setLock_same]
      simpa using hl
    · rw [setLock_other _ _ hne, h.locked, List.mem_cons, or_iff_right hne]
  have hrestore : ((s.setLock l { s.locks l with locked := false }).locks l).restoreInterrupts =
      (held.isEmpty && flag) := by
    rw [setLock_same]
    exact h.saved [] l held rfl
  have hoff : s.interruptsEnabled = false := h.enabled
  refine ⟨_, _, rfl, rfl, fun _ => hoff, ?_, (List.nodup_cons.mp h.nodup).2, ?_, ?_⟩
  · intro l'
    rw [hrestore]
    split
    next => exact hlocked l'
    next => exact hlocked l'
  · rw [hrestore]
    split
    next hon => exact (enable_enabled _).trans hon.symm
    next hon => exact hoff.trans (Bool.eq_false_iff.mpr hon).symm
  · intro newer l' older hsplit
    have hne : l' ≠ l := ne_of_not_mem hl hsplit
    have hkeep : ((s.setLock l { s.locks l with locked := false }).locks l').restoreInterrupts =
        (older.isEmpty && flag) := by
      rw [setLock_other _ _ hne]
      exact h.saved (l :: newer) l' older (by rw [hsplit]; rfl)
    split
    next => exact hkeep
    next => exact hkeep

theorem execAll_append (s : LockState ι) (stmts stmts' : List (LockStmt ι)) :
    s.execAll 0 (stmts ++ stmts') = (s.execAll 0 stmts).bind fun s' => s'.execAll 0 stmts' :=
  List.foldlM_append

/-- The points of a run, also those in the middle of an operation, are reached without a pause, and
no lock is held there with interrupts on. -/
def Reaches (s : LockState ι) (stmts : List (LockStmt ι)) : Prop :=
  ∀ point, point <+: stmts → ∃ s', s.execAll 0 point = some s' ∧ s'.Guarded

theorem Reaches.nil (h : s.Guarded) : s.Reaches [] := by
  intro point hpoint
  rw [List.prefix_nil.mp hpoint]
  exact ⟨s, rfl, h⟩

theorem Reaches.cons {s' : LockState ι} {stmt : LockStmt ι} {stmts : List (LockStmt ι)}
    (h : s.Guarded) (hexec : s.exec 0 stmt = some s') (hrest : s'.Reaches stmts) :
    s.Reaches (stmt :: stmts) := by
  intro point hpoint
  rcases List.prefix_cons_iff.mp hpoint with rfl | ⟨rest, rfl, hpoint'⟩
  · exact ⟨s, rfl, h⟩
  · unfold execAll
    rw [List.foldlM_cons, hexec]
    exact hrest rest hpoint'

theorem Reaches.append {s' : LockState ι} {stmts stmts' : List (LockStmt ι)} (h : s.Reaches stmts)
    (hexec : s.execAll 0 stmts = some s') (h' : s'.Reaches stmts') : s.Reaches (stmts ++ stmts') := by
  intro point hpoint
  rcases List.prefix_or_prefix_of_prefix hpoint (List.prefix_append stmts stmts') with hin | ⟨rest, rfl⟩
  · exact h point hin
  · rw [execAll_append, hexec, Option.bind_some]
    exact h' rest ((List.prefix_append_right_inj stmts).mp hpoint)

theorem Holds.step (h : s.Holds flag held) {op : LockOp ι} {ops : List (LockOp ι)} {held' : List ι}
    (hnested : heldAfter held (op :: ops) = some held') : ∃ s' mid, s.Reaches op.stmts ∧
      s.execAll 0 op.stmts = some s' ∧ s'.Holds flag mid ∧ heldAfter mid ops = some held' := by
  cases op with
  | acquire l =>
    unfold heldAfter at hnested
    split at hnested
    next => cases hnested
    next hl =>
      obtain ⟨s₁, s₂, s₃, h₁, h₂, h₃, hguard₁, hguard₂, hheld⟩ := h.acquire hl
      have hlast : s₃.Reaches [] := Reaches.nil hheld.guarded
      refine ⟨s₃, l :: held, ?_, ?_, hheld, hnested⟩
      · exact Reaches.cons h.guarded h₁ (Reaches.cons hguard₁ h₂ (Reaches.cons hguard₂ h₃ hlast))
      · simp only [execAll, LockOp.stmts, List.foldlM_cons, List.foldlM_nil, h₁, h₂, h₃, Option.bind_eq_bind,
          Option.bind_some, Option.pure_def]
  | release l =>
    cases held with
    | nil => cases hnested
    | cons top held =>
      unfold heldAfter at hnested
      split at hnested
      next htop =>
        subst htop
        obtain ⟨s₁, s₂, h₁, h₂, hguard₁, hheld⟩ := h.release
        have hlast : s₂.Reaches [] := Reaches.nil hheld.guarded
        refine ⟨s₂, held, ?_, ?_, hheld, hnested⟩
        · exact Reaches.cons h.guarded h₁ (Reaches.cons hguard₁ h₂ hlast)
        · simp only [execAll, LockOp.stmts, List.foldlM_cons, List.foldlM_nil, h₁, h₂, Option.bind_eq_bind,
            Option.bind_some, Option.pure_def]
      next => cases hnested

theorem Holds.run (h : s.Holds flag held) {ops : List (LockOp ι)} {held' : List ι}
    (hnested : heldAfter held ops = some held') : s.Reaches (ops.flatMap LockOp.stmts) ∧
      ∃ s', s.execAll 0 (ops.flatMap LockOp.stmts) = some s' ∧ s'.Holds flag held' := by
  induction ops generalizing s held with
  | nil =>
    cases hnested
    exact ⟨Reaches.nil h.guarded, s, rfl, h⟩
  | cons op ops ih =>
    obtain ⟨s', mid, hreach, hexec, hmid, hrest⟩ := h.step hnested
    obtain ⟨hreach', s'', hexec', hend⟩ := ih hmid hrest
    rw [List.flatMap_cons]
    refine ⟨hreach.append hexec hreach', s'', ?_, hend⟩
    rw [execAll_append, hexec, Option.bind_some]
    exact hexec'

omit [DecidableEq ι] in
theorem free_holds (h : ∀ l, (s.locks l).locked = false) : s.Holds s.interruptsEnabled [] where
  locked l := by simp [h]
  nodup := List.nodup_nil
  enabled := by simp
  saved newer l older hsplit := by simp at hsplit

/-- Properly nested operations that start with free locks never spin; no lock is held with
interrupts on at any of their statements, and the outermost release leaves the flag as the
outermost acquire found it. -/
theorem nested_locks (s : LockState ι) (hfree : ∀ l, (s.locks l).locked = false) {ops : List (LockOp ι)}
    {held : List ι} (hnested : heldAfter [] ops = some held) :
    (∀ stmts, stmts <+: ops.flatMap LockOp.stmts →
      ∃ s', s.execAll 0 stmts = some s' ∧
        ((∃ l, (s'.locks l).locked = true) → s'.interruptsEnabled = false)) ∧
      ∃ s', s.execAll 0 (ops.flatMap LockOp.stmts) = some s' ∧
        (∀ l, (s'.locks l).locked = true ↔ l ∈ held) ∧
        (held = [] → s'.interruptsEnabled = s.interruptsEnabled) := by
  obtain ⟨hreach, s', hrun, hend⟩ := (free_holds hfree).run hnested
  refine ⟨hreach, s', hrun, hend.locked, ?_⟩
  rintro rfl
  exact hend.enabled

def interruptible : LockState Nat := ⟨0x202#64, fun _ => ⟨false, false⟩⟩

def twiceNested : List (LockOp Nat) :=
  [.acquire 1, .acquire 2, .release 2, .acquire 3, .release 3, .release 1]

theorem nested_locks_twice :
    (∀ stmts, stmts <+: twiceNested.flatMap LockOp.stmts →
      ∃ s', interruptible.execAll 0 stmts = some s' ∧
        ((∃ l, (s'.locks l).locked = true) → s'.interruptsEnabled = false)) ∧
      ∃ s', interruptible.execAll 0 (twiceNested.flatMap LockOp.stmts) = some s' ∧
        (∀ l, (s'.locks l).locked = true ↔ l ∈ ([] : List Nat)) ∧
        (([] : List Nat) = [] → s'.interruptsEnabled = interruptible.interruptsEnabled) :=
  nested_locks interruptible (fun _ => rfl) (show heldAfter [] twiceNested = some [] by decide)

end LockState

end UmbraOS
