import UmbraOS.DescriptorTables

namespace UmbraOS

/-- `SYSCALLS`, in the order of the enumeration. -/
inductive SyscallCode
  | sysLog | sysMmap | sysOpen | sysRead | sysSeek | sysClose | sysTcbSet | sysExit | sysWrite
  | sysFutexWait | sysFutexWake | sysGetCwd | sysOpenat | sysStat | sysReadEntries | sysChdir
  | sysDrawFromBuffer | sysMkdir | sysClockGet | sysSleep | sysGetKbEvent | sysSocket | sysSendMsg
  | sysRecvMsg | sysSetSockOpt
deriving DecidableEq

namespace SyscallCode

def all : List SyscallCode :=
  [sysLog, sysMmap, sysOpen, sysRead, sysSeek, sysClose, sysTcbSet, sysExit, sysWrite, sysFutexWait,
    sysFutexWake, sysGetCwd, sysOpenat, sysStat, sysReadEntries, sysChdir, sysDrawFromBuffer, sysMkdir,
    sysClockGet, sysSleep, sysGetKbEvent, sysSocket, sysSendMsg, sysRecvMsg, sysSetSockOpt]

def number (code : SyscallCode) : Nat := all.idxOf code

theorem all_number (code : SyscallCode) : all[code.number]? = some code := by
  cases code <;> decide

end SyscallCode

/-- The six arguments of a system call. -/
structure SyscallArgs where
  arg1 : BitVec 64
  arg2 : BitVec 64
  arg3 : BitVec 64
  arg4 : BitVec 64
  arg5 : BitVec 64
  arg6 : BitVec 64

namespace Syscall

open Interrupt

/-- The functions behind `handlers`: what they make of memory, and what they return. -/
abbrev Handlers := SyscallCode → SyscallArgs → Memory → Memory × BitVec 64

/-- The byte offset of `rax` in the registers. -/
def raxOffset : Nat := 14 * 8

def handler (handlers : Handlers) : IrqHandler := fun m regs =>
  let r := Registers.ofMemory m regs
  if h : SyscallCode.all.length ≤ r.rdi.toNat then m
  else
    let code := SyscallCode.all.get ⟨r.rdi.toNat, Nat.lt_of_not_le h⟩
    let (m', ret) := handlers code ⟨r.rsi, r.rdx, r.rcx, r.r8, r.r9, r.r10⟩ m
    m'.store64 (regs + raxOffset) ret

/-- The moves of `_syscall` before the interrupt. -/
def loadArgs (code : BitVec 64) (args : SyscallArgs) (c : Processor) : Processor :=
  { c with regs := fun r =>
    match r with
    | .rdi => code
    | .rsi => args.arg1
    | .rdx => args.arg2
    | .rcx => args.arg3
    | .r8 => args.arg4
    | .r9 => args.arg5
    | .r10 => args.arg6
    | r => c.regs r }

end Syscall

namespace Interrupt

/-- The code of vector `i`, from the state in which the CPU enters it. -/
def fromGate (handlers : Nat → Option IrqHandler) (clobbered : Gpr → BitVec 64) (i : Nat)
    (c : Processor) : Option Processor := do
  let s := c.toStackMachine.execAll (intHandler i ++ stubEntry)
  let (m, ret) ← intDispatch handlers s.memory (s.regs .rdi)
  return afterDispatch clobbered m ret

end Interrupt

namespace Syscall

open Interrupt

/-- `_syscall` in a task: what it returns, and the CPU after it. -/
def syscall (t : TableRegisters) (irqs : Nat → Option IrqHandler) (clobbered : Gpr → BitVec 64)
    (code : BitVec 64) (args : SyscallArgs) (c : Processor) : Option (BitVec 64 × Processor) :=
  match (loadArgs code args c).deliver t true Idt.syscallVect none with
  | .error _ => none
  | .ok entered => do
    let c ← fromGate irqs clobbered Idt.syscallVect entered
    return (c.regs .rax, c)

variable {t : TableRegisters} {intHandlers : Nat → BitVec 64} {rsp0 : BitVec 64}
  {irqs : Nat → Option IrqHandler} {clobbered : Gpr → BitVec 64} {handlers : Handlers}

theorem ofMemory_store_rax (m : Memory) (a : Nat) (v : BitVec 64) :
    Registers.ofMemory (m.store64 (a + raxOffset) v) a = { Registers.ofMemory m a with rax := v } := by
  apply Registers.words_injective
  have hset : ({ Registers.ofMemory m a with rax := v } : Registers).words =
      (Registers.ofMemory m a).words.set 14 v := rfl
  rw [hset, Registers.words_ofMemory, Registers.words_ofMemory, ← loadWords_store64]
  rfl

/-- The registers of a struct with another value of `rax`. -/
theorem ofRegisters_rax (c : Processor) (v e ret : BitVec 64) (m : Memory) :
    Processor.ofRegisters { c.registers v e with rax := ret } m =
      { c with regs := Function.update c.regs .rax ret, memory := m } := by
  simp only [Processor.ofRegisters, Processor.registers, Processor.mk.injEq, StackMachine.mk.injEq,
    and_true]
  funext r
  cases r <;> rfl

theorem handler_valid {m : Memory} {regs : Nat} {code : SyscallCode}
    (h : (Registers.ofMemory m regs).rdi = BitVec.ofNat 64 code.number) :
    handler handlers m regs =
      let r := Registers.ofMemory m regs
      let result := handlers code ⟨r.rsi, r.rdx, r.rcx, r.r8, r.r9, r.r10⟩ m
      result.1.store64 (regs + raxOffset) result.2 := by
  have hcode := code.all_number
  obtain ⟨hlt, hget⟩ := List.getElem?_eq_some_iff.mp hcode
  have hlen : SyscallCode.all.length = 25 := rfl
  have hnumber : (BitVec.ofNat 64 code.number).toNat = code.number := by
    rw [BitVec.toNat_ofNat]
    omega
  unfold handler
  simp only [h, hnumber]
  rw [dif_neg (by omega), show SyscallCode.all.get ⟨code.number, hlt⟩ = code from hget]

theorem handler_invalid {m : Memory} {regs : Nat}
    (h : SyscallCode.all.length ≤ (Registers.ofMemory m regs).rdi.toNat) :
    handler handlers m regs = m := dif_pos h

/-- The memory at the call of `int_dispatch`, after an interrupt for a system call. -/
def callMemory (rsp0 : BitVec 64) (c : Processor) : Memory :=
  pushFrame c.memory (c.entrySp rsp0).toNat (c.registers (BitVec.ofNat 64 Idt.syscallVect) 0)

theorem ofMemory_callMemory (rsp0 : BitVec 64) (c : Processor) :
    Registers.ofMemory (callMemory rsp0 c) (frameAt rsp0 c) =
      c.registers (BitVec.ofNat 64 Idt.syscallVect) 0 :=
  ofMemory_pushFrame c.memory (c.entrySp rsp0).toNat _

/-- A system call of a task comes to `handler` with the registers of the task on the kernel's stack,
and returns to the task with those that `handler` leaves there. -/
theorem syscall_eq {c : Processor} (clobbered : Gpr → BitVec 64) (code : BitVec 64)
    (args : SyscallArgs)
    (ht : Installed t c.memory intHandlers rsp0) (hs : Selectors c.cs c.ss) (hroom : Room rsp0 c)
    (hh : irqs Idt.syscallVect = some (handler handlers)) {m : Memory}
    (hm : handler handlers (callMemory rsp0 (loadArgs code args c)) (frameAt rsp0 c) = m) :
    syscall t irqs clobbered code args c =
      some ((Registers.ofMemory m (frameAt rsp0 c)).rax,
        .ofRegisters (.ofMemory m (frameAt rsp0 c)) m) := by
  have hsuits : Suits Idt.syscallVect none := ⟨by decide, by decide⟩
  have hdeliver : (loadArgs code args c).deliver t true Idt.syscallVect none = _ :=
    @Installed.deliver t intHandlers rsp0 (loadArgs code args c) ht hs true Idt.syscallVect none
      (by decide)
  have hrun : interrupt irqs clobbered rsp0 (intHandlers Idt.syscallVect) Idt.syscallVect none
      (loadArgs code args c) = _ := interrupt_eq hsuits hroom
  rw [hh, Option.map_some] at hrun
  have hgate : fromGate irqs clobbered Idt.syscallVect ((loadArgs code args c).enter rsp0 0x08
      (intHandlers Idt.syscallVect) none) =
      some (.ofRegisters (.ofMemory m (frameAt rsp0 c)) m) := by
    rw [← hm]
    exact hrun
  unfold syscall
  rw [hdeliver, if_neg (by simp)]
  simp only [hgate]
  rfl

/-- A system call whose function runs on the memory `m`: the struct on the kernel's stack holds the
task's registers, and nothing else was written. The task goes on with what the struct holds when the
function has returned, and with the value that it returned; if the struct is as it was, those are the
task's registers. -/
structure Runs (handlers : Handlers) (rsp0 : BitVec 64) (code : SyscallCode) (args : SyscallArgs)
    (c : Processor) (m : Memory) (r : Option (BitVec 64 × Processor)) : Prop where
  struct : Registers.ofMemory m (frameAt rsp0 c) =
    (loadArgs (BitVec.ofNat 64 code.number) args c).registers (BitVec.ofNat 64 Idt.syscallVect) 0
  others : ∀ x, x < frameAt rsp0 c ∨ frameAt rsp0 c + frameSize ≤ x → m x = c.memory x
  returns : r = some ((handlers code args m).2, .ofRegisters
    { Registers.ofMemory (handlers code args m).1 (frameAt rsp0 c) with rax := (handlers code args m).2 }
    ((handlers code args m).1.store64 (frameAt rsp0 c + raxOffset) (handlers code args m).2))
  keeps : (∀ x, frameAt rsp0 c ≤ x → x < frameAt rsp0 c + frameSize →
      (handlers code args m).1 x = m x) →
    r = some ((handlers code args m).2, { loadArgs (BitVec.ofNat 64 code.number) args c with
      regs := Function.update (loadArgs (BitVec.ofNat 64 code.number) args c).regs .rax
        (handlers code args m).2
      memory := (handlers code args m).1.store64 (frameAt rsp0 c + raxOffset)
        (handlers code args m).2 })

/-- A system call of a task runs the function of its number with the six arguments in order, and
returns what the function returns; with another number it runs no function and returns what was in
`rax`. -/
theorem syscall_returns {c : Processor} (clobbered : Gpr → BitVec 64) (args : SyscallArgs)
    (ht : Installed t c.memory intHandlers rsp0) (hs : Selectors c.cs c.ss) (hroom : Room rsp0 c)
    (hh : irqs Idt.syscallVect = some (handler handlers)) :
    (∀ code : SyscallCode, ∃ m, Runs handlers rsp0 code args c m
      (syscall t irqs clobbered (BitVec.ofNat 64 code.number) args c)) ∧
    ∀ number : BitVec 64, SyscallCode.all.length ≤ number.toNat → ∃ m,
      (∀ x, x < frameAt rsp0 c ∨ frameAt rsp0 c + frameSize ≤ x → m x = c.memory x) ∧
      syscall t irqs clobbered number args c =
        some (c.regs .rax, { loadArgs number args c with memory := m }) := by
  constructor
  · intro code
    let c' := loadArgs (BitVec.ofNat 64 code.number) args c
    have hseen := ofMemory_callMemory rsp0 c'
    have hrdi : (Registers.ofMemory (callMemory rsp0 c') (frameAt rsp0 c)).rdi =
        BitVec.ofNat 64 code.number := congrArg Registers.rdi hseen
    have hm : handler handlers (callMemory rsp0 c') (frameAt rsp0 c) =
        (handlers code args (callMemory rsp0 c')).1.store64 (frameAt rsp0 c + raxOffset)
          (handlers code args (callMemory rsp0 c')).2 := by
      rw [handler_valid hrdi]
      simp only [show Registers.ofMemory (callMemory rsp0 c') (frameAt rsp0 c) = _ from hseen]
      rfl
    have hcall := syscall_eq clobbered _ args ht hs hroom hh hm
    rw [ofMemory_store_rax] at hcall
    refine ⟨callMemory rsp0 c', hseen, fun x hx => storeWords_outside c.memory hx, hcall,
      fun hleaves => ?_⟩
    have hkept : Registers.ofMemory (handlers code args (callMemory rsp0 c')).1 (frameAt rsp0 c) =
        c'.registers (BitVec.ofNat 64 Idt.syscallVect) 0 :=
      (Registers.ofMemory_congr hleaves).trans hseen
    rw [hcall, hkept, ofRegisters_rax]
  · intro number hnumber
    let c' := loadArgs number args c
    have hseen := ofMemory_callMemory rsp0 c'
    have hrdi : SyscallCode.all.length ≤
        (Registers.ofMemory (callMemory rsp0 c') (frameAt rsp0 c)).rdi.toNat := by
      rw [show (Registers.ofMemory (callMemory rsp0 c') (frameAt rsp0 c)).rdi = number from
        congrArg Registers.rdi hseen]
      exact hnumber
    refine ⟨callMemory rsp0 c', fun x hx => storeWords_outside c.memory hx, ?_⟩
    rw [syscall_eq clobbered _ args ht hs hroom hh (handler_invalid hrdi)]
    have hback : Processor.ofRegisters (Registers.ofMemory (callMemory rsp0 c') (frameAt rsp0 c))
        (callMemory rsp0 c') = { c' with memory := callMemory rsp0 c' } := by
      rw [show Registers.ofMemory (callMemory rsp0 c') (frameAt rsp0 c) = _ from hseen]
      exact c'.ofRegisters_registers _ _ _
    have hrax : (Registers.ofMemory (callMemory rsp0 c') (frameAt rsp0 c)).rax = c.regs .rax :=
      congrArg Registers.rax hseen
    rw [hback, hrax]

/-- `sysClockGet` writes through its first argument; the other functions return the second argument
less the first. -/
def sampleHandlers : Handlers := fun code args m =>
  if code = .sysClockGet then (m.store64 args.arg1.toNat 9, 0) else (m, args.arg2 - args.arg1)

/-- One call leaves the struct alone; another is given the address of `rbx` in it. -/
theorem task_syscall_returns : ∃ c c' : Processor, syscall sampleLayout.registers
    (fun _ => some (handler sampleHandlers)) (fun _ => 0) (BitVec.ofNat 64 SyscallCode.sysSeek.number)
    ⟨3, 10, 0, 0, 0, 0⟩ { Processor.user 0x7000 with memory := sampleBoot } = some (7, c) ∧
    c.regs .rbx = 7 ∧ c.rip = 0x400000 ∧ c.sp = 0x7000 ∧ c.cs = 0x1b ∧
    syscall sampleLayout.registers (fun _ => some (handler sampleHandlers)) (fun _ => 0)
      (BitVec.ofNat 64 SyscallCode.sysClockGet.number) ⟨0xffff8000001fffb8, 0, 0, 0, 0, 0⟩
      { Processor.user 0x7000 with memory := sampleBoot } = some (0, c') ∧ c'.regs .rbx = 9 := by
  have hapart : sampleLayout.Apart := ⟨by decide, by decide, by decide, by decide⟩
  have hs : Selectors 0x1b 0x23 := Or.inr ⟨rfl, rfl⟩
  let c : Processor := { Processor.user 0x7000 with memory := sampleBoot }
  have ht : Installed sampleLayout.registers c.memory _ (0xffff800000100000 + BitVec.ofNat 64 stackSize) :=
    (boot_installs _ _ _ hapart (loadWords_storeWords _ _ _)).2
  have hroom : Room (0xffff800000100000 + BitVec.ofNat 64 stackSize) c := by
    unfold Room
    decide
  have hframe : frameAt (0xffff800000100000 + BitVec.ofNat 64 stackSize) c = 0xffff8000001fff50 := by
    decide
  obtain ⟨hseek, -⟩ := @syscall_returns _ _ _ (fun _ => some (handler sampleHandlers)) sampleHandlers c
    (fun _ => 0) ⟨3, 10, 0, 0, 0, 0⟩ ht hs hroom rfl
  obtain ⟨hclock, -⟩ := @syscall_returns _ _ _ (fun _ => some (handler sampleHandlers)) sampleHandlers c
    (fun _ => 0) ⟨0xffff8000001fffb8, 0, 0, 0, 0, 0⟩ ht hs hroom rfl
  obtain ⟨m, hseek⟩ := hseek .sysSeek
  obtain ⟨m', hclock⟩ := hclock .sysClockGet
  refine ⟨_, _, hseek.keeps fun _ _ _ => rfl, rfl, rfl, rfl, rfl, hclock.returns, ?_⟩
  have haddr : frameAt (0xffff800000100000 + BitVec.ofNat 64 stackSize) c + 104 =
      (0xffff8000001fffb8#64).toNat := by
    rw [hframe]
    decide
  have hfield : ∀ (r : Registers) (v : BitVec 64) (n : Memory),
      (Processor.ofRegisters { r with rax := v } n).regs .rbx = r.rbx := fun _ _ _ => rfl
  rw [hfield, show ∀ n a, (Registers.ofMemory n a).rbx = n.load64 (a + 104) from fun _ _ => rfl, haddr]
  exact Memory.load64_store64 m' _ 9

end Syscall

end UmbraOS
