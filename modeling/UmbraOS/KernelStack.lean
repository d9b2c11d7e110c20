import Mathlib.Data.Set.BooleanAlgebra
import Mathlib.Order.CompletePartialOrder
import Mathlib.Order.Interval.Set.Basic
import UmbraOS.KernelRegisters
import UmbraOS.KernelTcb
import UmbraOS.StackMachine

namespace UmbraOS

/-- The words of a register frame, from the lowest address up. -/
def Registers.words (r : Registers) : List (BitVec 64) :=
  [r.r15, r.r14, r.r13, r.r12, r.r11, r.r10, r.r9, r.r8, r.rbp, r.rdi, r.rsi, r.rdx, r.rcx, r.rbx,
    r.rax, r.vectNum, r.errCode, r.iretRip, r.iretCs, r.iretFlags, r.iretRsp, r.iretSs]

/-- The code was interrupted in ring 3. -/
def Registers.ring3 (r : Registers) : Bool := r.iretCs &&& 3 = 3

/-- What the CPU and `int_stub` push at an interrupt. -/
def frameSize : Nat := 22 * 8

def stackSize : Nat := 1024 * 1024

/-- The CPU aligns the stack pointer before it pushes. -/
def stackTop (rsp : Nat) : Nat := rsp / 16 * 16

def pushFrame (m : Memory) (rsp : Nat) (regs : Registers) : Memory :=
  storeWords m (stackTop rsp - frameSize) regs.words

/-- Kernel code leaves `bytes` between `low` and `high`. -/
def scribble (m : Memory) (low high : Nat) (bytes : Memory) : Memory := fun a =>
  if low ≤ a ∧ a < high then bytes a else m a

/-- The kernel with the stack of the TSS: `rsp0` is `tss.rsp[0]`, which is set only once. -/
structure KernelStack where
  kernel : Kernel
  rsp0 : Nat
  memory : Memory

/-- How the code of the running task comes to use the kernel stack: by an interrupt or a system
call that finds it in ring 3, with the registers `frame`; by going on inside the kernel, where it
was resumed; or not at all, on the stack of a kernel task. `depth` is how far the kernel code gets
below the entry frame. -/
inductive Use
  | user (frame : Registers) (depth : Nat) (bytes : Memory)
  | inside (depth : Nat) (bytes : Memory)
  | own

def Use.depth : Use → Option Nat
  | .user _ depth _ => some depth
  | .inside depth _ => some depth
  | .own => none

/-- A use of the stack and what happens in it besides; `none` for a system call that returns and
touches nothing of the kernel's state. -/
structure Act where
  use : Use
  event : Option Kernel.Event

def Act.interrupt (a : Act) : Option Registers := a.event.bind Kernel.Event.interrupt

/-- The registers with which the code of the running task stops inside the kernel. -/
def Act.stop (a : Act) : Option Registers :=
  match a.event with
  | some (.kill _) => none
  | _ => a.interrupt.filter fun regs => !regs.ring3

namespace KernelStack

variable (hw : Platform) (fuel : Nat)

/-- `init_tss` with the pages that `Pmm::alloc` gave for the stack. -/
def init (idle : NewTask) (hhdm page : Nat) (memory : Memory) : KernelStack :=
  ⟨Kernel.init idle, u64 (hhdm + (page + stackSize)), memory⟩

def top (k : KernelStack) : Nat := stackTop k.rsp0

/-- The CPU starts an entry from ring 3 at `tss.rsp[0]`; in ring 0 it stays on the stack. -/
def entryRsp (k : KernelStack) (regs : Registers) : Nat :=
  if regs.ring3 then k.rsp0 else regs.iretRsp.toNat

def handled (k : KernelStack) : Use → Memory
  | .user frame depth bytes =>
    scribble (pushFrame k.memory (k.entryRsp frame) frame) (k.top - frameSize - depth)
      (k.top - frameSize) bytes
  | .inside depth bytes => scribble k.memory (k.top - frameSize - depth) k.top bytes
  | .own => k.memory

/-- `schedule` copies the registers it resumes over the frame of the interrupt it runs in. -/
def switched (k : KernelStack) (a : Act) (loaded : Option Registers) : Memory :=
  match a.use, a.interrupt, loaded with
  | .own, _, _ => k.handled a.use
  | _, some regs, some context => pushFrame (k.handled a.use) (k.entryRsp regs) context
  | _, _, _ => k.handled a.use

def happen (k : Kernel) : Option Kernel.Event → Except Trap Kernel
  | some e => k.step hw fuel e
  | none => .ok k

def step (k : KernelStack) (a : Act) : Except Trap KernelStack := do
  let kernel ← happen hw fuel k.kernel a.event
  return { k with kernel, memory := k.switched a kernel.loaded }

/-- Where the code of a task stopped on the stack of the TSS, and the bytes it left there. -/
structure Stop where
  rsp : Nat
  frames : Memory

abbrev Stops := Nat → Option Stop

def stops (k k' : KernelStack) (stopped : Stops) (a : Act) : Stops :=
  match k.kernel.sched.currentTask, a.use with
  | none, _ => stopped
  | _, .own => stopped
  | some t, _ =>
    Function.update stopped t (a.stop.map fun regs => ⟨regs.iretRsp.toNat, k'.memory⟩)

def stackStep (p : KernelStack × Stops) (a : Act) : Except Trap (KernelStack × Stops) := do
  let k ← p.1.step hw fuel a
  return (k, stops p.1 k p.2 a)

variable {hw : Platform} {fuel : Nat}

theorem stackStep_ok {p p' : KernelStack × Stops} {a : Act}
    (h : stackStep hw fuel p a = .ok p') :
    p.1.step hw fuel a = .ok p'.1 ∧ p'.2 = stops p.1 p'.1 p.2 a := by
  obtain ⟨k, hk, h⟩ := Except.bind_eq_ok.mp h
  cases h
  exact ⟨hk, rfl⟩

theorem step_rsp0 {k k' : KernelStack} {a : Act} (h : k.step hw fuel a = .ok k') :
    k'.rsp0 = k.rsp0 := by
  obtain ⟨kernel, _, h⟩ := Except.bind_eq_ok.mp h
  cases h
  rfl

/-- The interrupt in `yield` finds the stack pointer below the entry frame, and its own frame is
within the part of the stack that is used. -/
def Yields (top depth : Nat) (a : Act) : Prop :=
  ∀ regs, a.interrupt = some regs → regs.ring3 = false ∧
    regs.iretRsp.toNat + frameSize ≤ top ∧ top ≤ stackTop regs.iretRsp.toNat + depth

/-- What a use says of the running task `t`: one that stopped inside the kernel goes on there, and
no other one does; an interrupt in ring 3 saves the registers it finds there. -/
def Suits (p : KernelStack × Stops) (a : Act) (t : Nat) : Prop :=
  match a.use with
  | .user frame depth _ => p.2 t = none ∧ frame.ring3 = true ∧ frameSize + depth ≤ p.1.top ∧
      (a.event = some (.timer frame) ∨ Yields p.1.top depth a)
  | .inside depth _ => p.2 t ≠ none ∧ frameSize + depth ≤ p.1.top ∧ Yields p.1.top depth a
  | .own => p.2 t = none

/-- The calls and interrupts of each task come one after another. -/
def InTurn (p : KernelStack × Stops) (a : Act) (_ : KernelStack × Stops) : Prop :=
  ∃ t, p.1.kernel.sched.currentTask = some t ∧ Suits p a t

/-- The region that a task stopped in. -/
def Stop.region (stop : Stop) (top : Nat) : Set Nat := Set.Ico stop.rsp top

/-- The part of the stack that is used overlaps no region that another task stopped in. -/
def Apart (p : KernelStack × Stops) (a : Act) (_ : KernelStack × Stops) : Prop :=
  ∀ depth, a.use.depth = some depth → ∀ t stop, p.1.kernel.sched.currentTask ≠ some t →
    p.2 t = some stop →
    Disjoint (stop.region p.1.top) (Set.Ico (p.1.top - frameSize - depth) p.1.top)

/-- An entry from ring 3 finds no other task stopped inside the kernel. -/
def EntersAlone (p : KernelStack × Stops) (a : Act) (_ : KernelStack × Stops) : Prop :=
  ∀ frame depth bytes, a.use = .user frame depth bytes →
    ∀ t, p.1.kernel.sched.currentTask ≠ some t → p.2 t = none

/-- One task at most has stopped inside the kernel, below its entry frame, and its frames are as
it left them. -/
structure OneStopped (p : KernelStack × Stops) : Prop where
  below : ∀ t stop, p.2 t = some stop → stop.rsp + frameSize ≤ p.1.top
  single : ∀ t u, p.2 t ≠ none → p.2 u ≠ none → t = u
  intact : ∀ t stop, p.2 t = some stop → ∀ x ∈ stop.region p.1.top, p.1.memory x = stop.frames x

theorem init_oneStopped (idle : NewTask) (hhdm page : Nat) (memory : Memory) :
    OneStopped (init idle hhdm page memory, fun _ => none) := by
  refine ⟨?_, ?_, ?_⟩
  · intro t stop h
    cases h
  · intro t u h
    exact absurd rfl h
  · intro t stop h
    cases h

/-- Two regions that end at the same place overlap. -/
theorem regions_overlap {rsp low top : Nat} (hr : rsp < top) (hl : low < top) :
    ¬Disjoint (Set.Ico rsp top) (Set.Ico low top) := by
  intro h
  have hx : top - 1 ∈ Set.Ico rsp top := ⟨by omega, by omega⟩
  exact Set.disjoint_left.mp h hx ⟨by omega, by omega⟩

theorem apart_iff {p p' : KernelStack × Stops} {a : Act} (h : OneStopped p)
    (hturn : InTurn p a p') : Apart p a p' ↔ EntersAlone p a p' := by
  obtain ⟨t, hc, hsuits⟩ := hturn
  have hother : ∀ u, p.1.kernel.sched.currentTask ≠ some u → u ≠ t := by
    rintro u hu rfl
    exact hu hc
  unfold Suits at hsuits
  constructor
  · intro hapart frame depth bytes huse u hu
    rw [huse] at hsuits
    obtain ⟨_, _, hroom, _⟩ := hsuits
    by_contra hstop
    obtain ⟨stop, hstop⟩ := Option.ne_none_iff_exists'.mp hstop
    have hbelow := h.below u stop hstop
    have hdisjoint := hapart depth (by rw [huse]; rfl) u stop hu hstop
    unfold frameSize at hroom hbelow
    exact regions_overlap (by omega) (by unfold frameSize; omega) hdisjoint
  · intro halone depth hdepth u stop hu hstop
    have hnone : p.2 u = none := by
      cases huse : a.use with
      | user frame depth' bytes => exact halone frame depth' bytes huse u hu
      | inside depth' bytes =>
        rw [huse] at hsuits
        by_contra hne
        exact hother u hu (h.single u t hne hsuits.1)
      | own =>
        rw [huse] at hdepth
        cases hdepth
    rw [hnone] at hstop
    cases hstop

/-- On the stack of the TSS only the running task has stopped, if it has. -/
theorem OneStopped.of_alone {k' : KernelStack} {stopped : Stops} {t : Nat} {a : Act}
    (hnone : ∀ u, u ≠ t → stopped u = none)
    (hbelow : ∀ regs, a.stop = some regs → regs.iretRsp.toNat + frameSize ≤ k'.top) :
    OneStopped (k', Function.update stopped t
      (a.stop.map fun regs => ⟨regs.iretRsp.toNat, k'.memory⟩)) := by
  have hat : ∀ u stop, Function.update stopped t
      (a.stop.map fun regs => ⟨regs.iretRsp.toNat, k'.memory⟩) u = some stop →
      u = t ∧ ∃ regs, a.stop = some regs ∧ stop = ⟨regs.iretRsp.toNat, k'.memory⟩ := by
    intro u stop hu
    by_cases he : u = t
    · subst he
      rw [Function.update_self] at hu
      obtain ⟨regs, hregs, hstop⟩ := Option.map_eq_some_iff.mp hu
      exact ⟨rfl, regs, hregs, hstop.symm⟩
    · rw [Function.update_of_ne he, hnone u he] at hu
      cases hu
  refine ⟨?_, ?_, ?_⟩
  · intro u stop hu
    obtain ⟨_, regs, hregs, rfl⟩ := hat u stop hu
    exact hbelow regs hregs
  · intro u v hu hv
    obtain ⟨stop, hu⟩ := Option.ne_none_iff_exists'.mp hu
    obtain ⟨stop', hv⟩ := Option.ne_none_iff_exists'.mp hv
    exact (hat u stop hu).1.trans (hat v stop' hv).1.symm
  · intro u stop hu x _
    obtain ⟨_, regs, _, rfl⟩ := hat u stop hu
    rfl

theorem stop_interrupt {a : Act} {regs : Registers} (h : a.stop = some regs) :
    a.interrupt = some regs ∧ regs.ring3 = false := by
  unfold Act.stop at h
  split at h
  next => cases h
  next =>
    obtain ⟨hregs, hring⟩ := Option.filter_eq_some_iff.mp h
    exact ⟨hregs, by simpa using hring⟩

theorem Yields.below {top depth : Nat} {a : Act} (h : Yields top depth a) {regs : Registers}
    (hs : a.stop = some regs) : regs.iretRsp.toNat + frameSize ≤ top :=
  (h regs (stop_interrupt hs).1).2.1

theorem OneStopped.step {p p' : KernelStack × Stops} {a : Act} (h : OneStopped p)
    (hturn : InTurn p a p') (halone : EntersAlone p a p')
    (hs : stackStep hw fuel p a = .ok p') : OneStopped p' := by
  obtain ⟨k, stopped⟩ := p
  obtain ⟨k', stopped'⟩ := p'
  obtain ⟨hstep, hstops⟩ := stackStep_ok hs
  obtain ⟨t, hc, hsuits⟩ := hturn
  have htop : k'.top = k.top := by
    unfold top
    rw [step_rsp0 hstep]
  have hother : ∀ u, u ≠ t → k.kernel.sched.currentTask ≠ some u := by
    intro u hu he
    exact hu (Option.some.inj (he.symm.trans hc))
  unfold Suits at hsuits
  unfold stops at hstops
  simp only at hc hstops hsuits
  rw [hc] at hstops
  cases huse : a.use with
  | user frame depth bytes =>
    rw [huse] at hsuits hstops
    rw [hstops]
    apply OneStopped.of_alone (fun u hu => halone frame depth bytes huse u (hother u hu))
    intro regs hregs
    rw [htop]
    rcases hsuits.2.2.2 with htimer | hyields
    · obtain ⟨hint, hring⟩ := stop_interrupt hregs
      unfold Act.interrupt at hint
      rw [htimer] at hint
      obtain rfl : frame = regs := Option.some.inj hint
      rw [hsuits.2.1] at hring
      cases hring
    · exact hyields.below hregs
  | inside depth bytes =>
    rw [huse] at hsuits hstops
    rw [hstops]
    apply OneStopped.of_alone
    · intro u hu
      by_contra hne
      exact hu (h.single u t hne hsuits.1)
    · intro regs hregs
      rw [htop]
      exact hsuits.2.2.below hregs
  | own =>
    rw [huse] at hstops
    have hmemory : k'.memory = k.memory := by
      obtain ⟨kernel, _, hstep⟩ := Except.bind_eq_ok.mp hstep
      cases hstep
      unfold switched handled
      rw [huse]
    rw [hstops]
    refine ⟨?_, h.single, ?_⟩
    · intro u stop hu
      simp only [htop]
      exact h.below u stop hu
    · intro u stop hu x hx
      simp only [htop] at hx
      simp only [hmemory]
      exact h.intact u stop hu x hx

/-- In every run, no use of the kernel stack overlaps a region that another task stopped in
exactly when every entry from ring 3 finds no other task stopped inside the kernel; and then the
frames of a stopped task are intact. -/
theorem stacks_apart_iff {idle : NewTask} {hhdm page : Nat} {memory : Memory} {acts : List Act}
    (hturn : Along (stackStep hw fuel) InTurn (init idle hhdm page memory, fun _ => none) acts) :
    (Along (stackStep hw fuel) Apart (init idle hhdm page memory, fun _ => none) acts ↔
      Along (stackStep hw fuel) EntersAlone (init idle hhdm page memory, fun _ => none) acts) ∧
    (Along (stackStep hw fuel) EntersAlone (init idle hhdm page memory, fun _ => none) acts →
      ∀ k stopped, run (stackStep hw fuel) (init idle hhdm page memory, fun _ => none) acts =
          .ok (k, stopped) →
        ∀ t stop, stopped t = some stop → ∀ x ∈ stop.region k.top, k.memory x = stop.frames x) := by
  have hstart := init_oneStopped idle hhdm page memory
  have hsame : ∀ p a p', OneStopped p → InTurn p a p' → stackStep hw fuel p a = .ok p' →
      (Apart p a p' ↔ EntersAlone p a p') := fun p a p' h hturn _ => apart_iff h hturn
  have hkeep : ∀ p a p', OneStopped p → InTurn p a p' → EntersAlone p a p' →
      stackStep hw fuel p a = .ok p' → OneStopped p' :=
    fun p a p' h hturn halone hs => h.step hturn halone hs
  refine ⟨Along.congr_of_keep hsame hkeep hstart hturn, ?_⟩
  intro halone k stopped hrun
  have hone : OneStopped (k, stopped) := by
    apply (hturn.and halone).invariant _ hstart hrun
    intro p a p' h hmeets hs
    exact h.step hmeets.1 hmeets.2 hs
  exact hone.intact

/-- A frame pushed in ring 3 by a task with the stack pointer `rsp`. -/
def ring3Frame (rsp : BitVec 64) : Registers := { Kernel.userRegisters with iretRsp := rsp }

/-- The registers at the interrupt in `yield`, with the kernel stack at `rsp`. -/
def yieldFrame (rsp : BitVec 64) : Registers :=
  { Scheduler.zeroRegisters with iretCs := 8, iretRsp := rsp }

/-- A user task waits for input inside the kernel, and is resumed there. -/
def oneWaits : List Act :=
  [⟨.own, some (.addTask Kernel.userTask)⟩, ⟨.own, some (.timer Scheduler.zeroRegisters)⟩,
    ⟨.user (ring3Frame 8192) 256 fun _ => 0, some (.awaitIo (yieldFrame 0xfff00))⟩,
    ⟨.own, some .wakeNet⟩, ⟨.own, some (.timer Scheduler.zeroRegisters)⟩]

/-- A second user task is interrupted while the first one waits. -/
def twoEnter : List Act :=
  [⟨.own, some (.addTask Kernel.userTask)⟩, ⟨.own, some (.addTask Kernel.userTask)⟩,
    ⟨.own, some (.timer Scheduler.zeroRegisters)⟩,
    ⟨.user (ring3Frame 8192) 256 fun _ => 0, some (.awaitIo (yieldFrame 0xfff00))⟩,
    ⟨.user (ring3Frame 4096) 0 fun _ => 0, some .wakeNet⟩,
    ⟨.user (ring3Frame 4096) 0 fun _ => 0, some (.timer (ring3Frame 4096))⟩]

theorem yieldFrame_yields {e : Kernel.Event} {use : Use}
    (h : e.interrupt = some (yieldFrame 0xfff00)) : Yields 0x100000 256 ⟨use, some e⟩ := by
  intro regs hregs
  have hint : e.interrupt = some regs := hregs
  rw [h] at hint
  obtain rfl := Option.some.inj hint
  exact ⟨by decide, by decide, by decide⟩

theorem oneWaits_inTurn : Along (stackStep ⟨id, 1, 0⟩ 4) InTurn
    (init Scheduler.plainTask 0 0 fun _ => 0, fun _ => none) oneWaits := by
  intro p₁ h₁
  cases h₁
  refine ⟨⟨0, rfl, rfl⟩, fun p₂ h₂ => ?_⟩
  cases h₂
  refine ⟨⟨0, rfl, rfl⟩, fun p₃ h₃ => ?_⟩
  cases h₃
  refine ⟨⟨1, rfl, rfl, by decide, by decide, Or.inr (yieldFrame_yields rfl)⟩, fun p₄ h₄ => ?_⟩
  cases h₄
  refine ⟨⟨0, rfl, rfl⟩, fun p₅ h₅ => ?_⟩
  cases h₅
  exact ⟨⟨0, rfl, rfl⟩, trivial⟩

theorem waiting_frames_intact : ∃ k stopped stop, run (stackStep ⟨id, 1, 0⟩ 4)
      (init Scheduler.plainTask 0 0 fun _ => 0, fun _ => none) oneWaits = .ok (k, stopped) ∧
    k.kernel.sched.currentTask = some 1 ∧ stopped 1 = some stop ∧
    ∀ x ∈ stop.region k.top, k.memory x = stop.frames x := by
  have halone : Along (stackStep ⟨id, 1, 0⟩ 4) EntersAlone
      (init Scheduler.plainTask 0 0 fun _ => 0, fun _ => none) oneWaits := by
    intro p₁ h₁
    cases h₁
    refine ⟨fun _ _ _ huse => Use.noConfusion huse, fun p₂ h₂ => ?_⟩
    cases h₂
    refine ⟨fun _ _ _ huse => Use.noConfusion huse, fun p₃ h₃ => ?_⟩
    cases h₃
    refine ⟨fun _ _ _ _ _ _ => rfl, fun p₄ h₄ => ?_⟩
    cases h₄
    refine ⟨fun _ _ _ huse => Use.noConfusion huse, fun p₅ h₅ => ?_⟩
    cases h₅
    exact ⟨fun _ _ _ huse => Use.noConfusion huse, trivial⟩
  obtain ⟨k, stopped, stop, hrun, hc, hstop⟩ : ∃ k stopped stop, run (stackStep ⟨id, 1, 0⟩ 4)
      (init Scheduler.plainTask 0 0 fun _ => 0, fun _ => none) oneWaits = .ok (k, stopped) ∧
      k.kernel.sched.currentTask = some 1 ∧ stopped 1 = some stop := ⟨_, _, _, rfl, rfl, rfl⟩
  exact ⟨k, stopped, stop, hrun, hc, hstop,
    (stacks_apart_iff oneWaits_inTurn).2 halone k stopped hrun 1 stop hstop⟩

/-- The interrupts of the second task overlap the frames of the first one, and the first one is
resumed above the frame of another task. -/
theorem frames_overwritten :
    Along (stackStep ⟨id, 1, 0⟩ 4) InTurn
      (init Scheduler.plainTask 0 0 fun _ => 0, fun _ => none) twoEnter ∧
    ¬Along (stackStep ⟨id, 1, 0⟩ 4) Apart
      (init Scheduler.plainTask 0 0 fun _ => 0, fun _ => none) twoEnter ∧
    ∃ k stopped stop, run (stackStep ⟨id, 1, 0⟩ 4)
        (init Scheduler.plainTask 0 0 fun _ => 0, fun _ => none) twoEnter = .ok (k, stopped) ∧
      k.kernel.sched.currentTask = some 2 ∧ stopped 2 = some stop ∧
      ∃ x ∈ stop.region k.top, k.memory x ≠ stop.frames x := by
  refine ⟨?_, ?_, ?_⟩
  · intro p₁ h₁
    cases h₁
    refine ⟨⟨0, rfl, rfl⟩, fun p₂ h₂ => ?_⟩
    cases h₂
    refine ⟨⟨0, rfl, rfl⟩, fun p₃ h₃ => ?_⟩
    cases h₃
    refine ⟨⟨0, rfl, rfl⟩, fun p₄ h₄ => ?_⟩
    cases h₄
    refine ⟨⟨2, rfl, rfl, by decide, by decide, Or.inr (yieldFrame_yields rfl)⟩, fun p₅ h₅ => ?_⟩
    cases h₅
    refine ⟨⟨1, rfl, rfl, by decide, by decide, Or.inr fun _ h => by cases h⟩, fun p₆ h₆ => ?_⟩
    cases h₆
    exact ⟨⟨1, rfl, rfl, by decide, by decide, Or.inl rfl⟩, trivial⟩
  · intro h
    obtain ⟨_, h⟩ := h _ rfl
    obtain ⟨_, h⟩ := h _ rfl
    obtain ⟨_, h⟩ := h _ rfl
    obtain ⟨_, h⟩ := h _ rfl
    obtain ⟨hapart, _⟩ := h _ rfl
    have hne : (some 1 : Option Nat) ≠ some 2 := by decide
    exact regions_overlap (by decide) (by decide) (hapart 0 rfl 2 _ hne rfl)
  · refine ⟨_, _, _, rfl, rfl, rfl, 0xffff1, ⟨by decide, by decide⟩, ?_⟩
    decide

end KernelStack

end UmbraOS
