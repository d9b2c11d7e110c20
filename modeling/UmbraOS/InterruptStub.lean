import UmbraOS.KernelStack

namespace UmbraOS

namespace Registers

/-- The struct that a pointer to `Registers` points to. -/
def ofMemory (m : Memory) (a : Nat) : Registers where
  r15 := m.load64 a
  r14 := m.load64 (a + 8)
  r13 := m.load64 (a + 16)
  r12 := m.load64 (a + 24)
  r11 := m.load64 (a + 32)
  r10 := m.load64 (a + 40)
  r9 := m.load64 (a + 48)
  r8 := m.load64 (a + 56)
  rbp := m.load64 (a + 64)
  rdi := m.load64 (a + 72)
  rsi := m.load64 (a + 80)
  rdx := m.load64 (a + 88)
  rcx := m.load64 (a + 96)
  rbx := m.load64 (a + 104)
  rax := m.load64 (a + 112)
  vectNum := m.load64 (a + 120)
  errCode := m.load64 (a + 128)
  iretRip := m.load64 (a + 136)
  iretCs := m.load64 (a + 144)
  iretFlags := m.load64 (a + 152)
  iretRsp := m.load64 (a + 160)
  iretSs := m.load64 (a + 168)

theorem words_ofMemory (m : Memory) (a : Nat) : (ofMemory m a).words = loadWords m a 22 := rfl

theorem words_injective {r r' : Registers} (h : r.words = r'.words) : r = r' := by
  cases r
  cases r'
  simp only [words, List.cons.injEq, and_true] at h
  simp only [Registers.mk.injEq]
  exact h

theorem ofMemory_storeWords (m : Memory) (a : Nat) (r : Registers) :
    ofMemory (storeWords m a r.words) a = r := by
  apply words_injective
  rw [words_ofMemory]
  exact loadWords_storeWords m a r.words

theorem ofMemory_congr {m m' : Memory} {a : Nat} (h : ∀ x, a ≤ x → x < a + frameSize → m x = m' x) :
    ofMemory m a = ofMemory m' a := by
  apply words_injective
  rw [words_ofMemory, words_ofMemory]
  exact loadWords_congr h

end Registers

/-- The general registers but for the stack pointer. -/
inductive Gpr
  | rax | rbx | rcx | rdx | rsi | rdi | rbp | r8 | r9 | r10 | r11 | r12 | r13 | r14 | r15
deriving DecidableEq

/-- The registers that an interrupt saves, and the memory. -/
structure Processor extends StackMachine Gpr where
  rip : BitVec 64
  cs : BitVec 64
  rflags : BitVec 64
  ss : BitVec 64

namespace Processor

/-- The vectors of the exceptions with which the CPU pushes an error code. -/
def errorCodeVectors : List Nat := [8, 10, 11, 12, 13, 14, 17, 21, 29, 30]

/-- TF, IF, NT, RF and VM. -/
def gateFlags : BitVec 64 := 0x34300

/-- The code that an interrupt comes to is entered from ring 3. -/
def ring3 (c : Processor) : Bool := c.cs &&& 3 = 3

/-- The stack an interrupt starts on: that of the TSS from ring 3, and else the one in use. -/
def entrySp (rsp0 : BitVec 64) (c : Processor) : BitVec 64 := if c.ring3 then rsp0 else c.sp

/-- The delivery through an interrupt gate whose code runs in ring 0. -/
def enter (rsp0 selector offset : BitVec 64) (err : Option (BitVec 64)) (c : Processor) : Processor where
  toStackMachine := StackMachine.pushWords ⟨c.regs, c.entrySp rsp0 &&& ~~~15#64, c.memory⟩
    ([c.ss, c.sp, c.rflags, c.cs, c.rip] ++ err.toList)
  rip := offset
  cs := selector
  rflags := c.rflags &&& ~~~gateFlags
  ss := if c.ring3 then 0 else c.ss

def iretq (s : StackMachine Gpr) : Processor where
  regs := s.regs
  sp := s.memory.load64 (s.sp.toNat + 24)
  memory := s.memory
  rip := s.memory.load64 s.sp.toNat
  cs := s.memory.load64 (s.sp.toNat + 8)
  rflags := s.memory.load64 (s.sp.toNat + 16)
  ss := s.memory.load64 (s.sp.toNat + 32)

/-- The registers of the CPU as an interrupt saves them. -/
def registers (c : Processor) (vectNum errCode : BitVec 64) : Registers where
  r15 := c.regs .r15
  r14 := c.regs .r14
  r13 := c.regs .r13
  r12 := c.regs .r12
  r11 := c.regs .r11
  r10 := c.regs .r10
  r9 := c.regs .r9
  r8 := c.regs .r8
  rbp := c.regs .rbp
  rdi := c.regs .rdi
  rsi := c.regs .rsi
  rdx := c.regs .rdx
  rcx := c.regs .rcx
  rbx := c.regs .rbx
  rax := c.regs .rax
  vectNum
  errCode
  iretRip := c.rip
  iretCs := c.cs
  iretFlags := c.rflags
  iretRsp := c.sp
  iretSs := c.ss

/-- The CPU with the registers of a struct. -/
def ofRegisters (r : Registers) (memory : Memory) : Processor where
  regs
    | .rax => r.rax
    | .rbx => r.rbx
    | .rcx => r.rcx
    | .rdx => r.rdx
    | .rsi => r.rsi
    | .rdi => r.rdi
    | .rbp => r.rbp
    | .r8 => r.r8
    | .r9 => r.r9
    | .r10 => r.r10
    | .r11 => r.r11
    | .r12 => r.r12
    | .r13 => r.r13
    | .r14 => r.r14
    | .r15 => r.r15
  sp := r.iretRsp
  memory
  rip := r.iretRip
  cs := r.iretCs
  rflags := r.iretFlags
  ss := r.iretSs

theorem ofRegisters_registers (c : Processor) (v e : BitVec 64) (m : Memory) :
    ofRegisters (c.registers v e) m = { c with memory := m } := by
  obtain ⟨⟨regs, sp, memory⟩, rip, cs, rflags, ss⟩ := c
  simp only [ofRegisters, registers, Processor.mk.injEq, StackMachine.mk.injEq, and_true]
  funext r
  cases r <;> rfl

/-- Code in ring 3 with its stack at `sp`. -/
def user (sp : BitVec 64) : Processor := ⟨⟨fun _ => 7, sp, fun _ => 0⟩, 0x400000, 0x1b, 0x202, 0x23⟩

end Processor

namespace Interrupt

/-- The vectors of the macro `INT_ERR`. -/
def intErr : List Nat := [8, 10, 11, 12, 13, 14, 17, 21, 29, 30]

/-- `int_handler_i`, up to the jump to `int_stub`. -/
def intHandler (i : Nat) : List (StackInstr Gpr) :=
  if i ∈ intErr then [.pushImm (BitVec.ofNat 64 i)] else [.pushImm 0, .pushImm (BitVec.ofNat 64 i)]

def pushed : List Gpr :=
  [.rax, .rbx, .rcx, .rdx, .rsi, .rdi, .rbp, .r8, .r9, .r10, .r11, .r12, .r13, .r14, .r15]

def popped : List Gpr :=
  [.r15, .r14, .r13, .r12, .r11, .r10, .r9, .r8, .rbp, .rdi, .rsi, .rdx, .rcx, .rbx, .rax]

/-- `int_stub` up to the call of `int_dispatch`, without the return address that the call pushes below
the struct. -/
def stubEntry : List (StackInstr Gpr) := pushed.map .push ++ [.movFromSp .rdi]

/-- `int_stub` from the return of `int_dispatch` to `iretq`. -/
def stubExit : List (StackInstr Gpr) := .movToSp .rax :: popped.map .pop ++ [.addSp 16]

/-- What a handler makes of memory when it gets the address of the registers. -/
abbrev IrqHandler := Memory → Nat → Memory

/-- The memory after `int_dispatch` and what it returns; without a handler it halts. -/
def intDispatch (handlers : Nat → Option IrqHandler) (m : Memory) (regs : BitVec 64) :
    Option (Memory × BitVec 64) :=
  match handlers (Registers.ofMemory m regs.toNat).vectNum.toNat with
  | some handler => some (handler m regs.toNat, regs)
  | none => none

/-- The machine at the call of `int_dispatch`. -/
def atDispatch (rsp0 offset : BitVec 64) (i : Nat) (err : Option (BitVec 64)) (c : Processor) :
    StackMachine Gpr :=
  (c.enter rsp0 8 offset err).toStackMachine.execAll (intHandler i ++ stubEntry)

/-- The CPU after the return of `int_dispatch`; the compiler may use every register for its own
values. -/
def afterDispatch (clobbered : Gpr → BitVec 64) (m : Memory) (ret : BitVec 64) : Processor :=
  Processor.iretq (StackMachine.execAll ⟨Function.update clobbered .rax ret, 0, m⟩ stubExit)

/-- An interrupt, from the code it comes to and back. -/
def interrupt (handlers : Nat → Option IrqHandler) (clobbered : Gpr → BitVec 64)
    (rsp0 offset : BitVec 64) (i : Nat) (err : Option (BitVec 64)) (c : Processor) : Option Processor := do
  let s := atDispatch rsp0 offset i err c
  let (m, ret) ← intDispatch handlers s.memory (s.regs .rdi)
  return afterDispatch clobbered m ret

variable {rsp0 offset : BitVec 64} {i : Nat} {err : Option (BitVec 64)} {c : Processor}

/-- The CPU pushes an error code with the exceptions that have one. -/
def Suits (i : Nat) (err : Option (BitVec 64)) : Prop :=
  i < 256 ∧ (err.isSome = true ↔ i ∈ Processor.errorCodeVectors)

/-- Where the handler finds the registers. -/
def frameAt (rsp0 : BitVec 64) (c : Processor) : Nat := stackTop (c.entrySp rsp0).toNat - frameSize

/-- The stack that the interrupt starts on has room for the registers. -/
def Room (rsp0 : BitVec 64) (c : Processor) : Prop := frameSize ≤ stackTop (c.entrySp rsp0).toNat

theorem toNat_align (x : BitVec 64) : (x &&& ~~~15#64).toNat = stackTop x.toNat := by
  have hshift : x &&& ~~~15#64 = (x >>> 4) <<< 4 := by
    apply BitVec.eq_of_getLsbD_eq
    intro j hj
    have hmask : (15#64).getLsbD j = decide (j < 4) := by
      rw [BitVec.getLsbD_ofNat, show 15 = 2 ^ 4 - 1 from rfl, Nat.testBit_two_pow_sub_one]
      simp [hj]
    simp only [BitVec.getLsbD_and, BitVec.getLsbD_not, BitVec.getLsbD_shiftLeft,
      BitVec.getLsbD_ushiftRight, hmask, hj]
    by_cases hlow : j < 4
    · simp [hlow]
    · simp [hlow, show 4 + (j - 4) = j by omega]
  have hx := x.isLt
  rw [hshift, BitVec.toNat_shiftLeft, BitVec.toNat_ushiftRight, Nat.shiftRight_eq_div_pow,
    Nat.shiftLeft_eq, stackTop]
  omega

/-- After the handler of a vector the stack holds an error code and the vector, whether the CPU
pushed a code or not. -/
theorem execAll_intHandler (s : StackMachine Gpr) (h : Suits i err) :
    (s.pushWords err.toList).execAll (intHandler i) =
      s.pushWords [err.getD 0, BitVec.ofNat 64 i] := by
  have hsame : i ∈ intErr ↔ err.isSome = true := h.2.symm
  unfold intHandler
  cases err with
  | none =>
    rw [if_neg fun hi => by cases hsame.mp hi]
    rfl
  | some e =>
    rw [if_pos (hsame.mpr rfl)]
    rfl

theorem execAll_stubEntry (s : StackMachine Gpr) : s.execAll stubEntry =
    { s.pushWords (pushed.map s.regs) with
      regs := Function.update s.regs .rdi (s.pushWords (pushed.map s.regs)).sp } := by
  have hmov : ∀ t : StackMachine Gpr, t.execAll [.movFromSp .rdi] =
      { t with regs := Function.update t.regs .rdi t.sp } := fun _ => rfl
  rw [stubEntry, StackMachine.execAll_append, StackMachine.execAll_pushes, hmov,
    StackMachine.pushWords_regs]

/-- What the code of an interrupt has pushed at the call of `int_dispatch`, on top of what the CPU
pushed. -/
theorem execAll_entry (s : StackMachine Gpr) (ws : List (BitVec 64)) (h : Suits i err)
    (hroom : 8 * (ws.length + 17) ≤ s.sp.toNat) :
    (s.pushWords (ws ++ err.toList)).execAll (intHandler i ++ stubEntry) =
      ⟨Function.update s.regs .rdi (BitVec.ofNat 64 (s.sp.toNat - 8 * (ws.length + 17))),
        BitVec.ofNat 64 (s.sp.toNat - 8 * (ws.length + 17)),
        storeWords s.memory (s.sp.toNat - 8 * (ws.length + 17))
          ((pushed.map s.regs).reverse ++ [BitVec.ofNat 64 i, err.getD 0] ++ ws.reverse)⟩ := by
  have hlen : (ws ++ ([err.getD 0, BitVec.ofNat 64 i] ++ pushed.map s.regs)).length =
      ws.length + 17 := by
    rw [List.length_append]
    rfl
  have hrev : (ws ++ ([err.getD 0, BitVec.ofNat 64 i] ++ pushed.map s.regs)).reverse =
      (pushed.map s.regs).reverse ++ [BitVec.ofNat 64 i, err.getD 0] ++ ws.reverse := by
    rw [List.reverse_append, List.reverse_append]
    rfl
  rw [StackMachine.execAll_append, StackMachine.pushWords_append, execAll_intHandler _ h,
    execAll_stubEntry, StackMachine.pushWords_regs, StackMachine.pushWords_regs,
    ← StackMachine.pushWords_append, ← StackMachine.pushWords_append,
    StackMachine.pushWords_eq s (by rw [hlen]; exact hroom), hlen, hrev]

theorem stackTop_mod (n : Nat) : stackTop n % 16 = 0 := by
  rw [stackTop]
  omega

/-- `int_dispatch` is called with the address of a struct that holds the registers of the
interrupted code. -/
theorem atDispatch_eq (h : Suits i err) (hroom : Room rsp0 c) : atDispatch rsp0 offset i err c =
    ⟨Function.update c.regs .rdi (BitVec.ofNat 64 (frameAt rsp0 c)),
      BitVec.ofNat 64 (frameAt rsp0 c), pushFrame c.memory (c.entrySp rsp0).toNat
        (c.registers (BitVec.ofNat 64 i) (err.getD 0))⟩ := by
  have hwords : (pushed.map c.regs).reverse ++ [BitVec.ofNat 64 i, err.getD 0] ++
      [c.ss, c.sp, c.rflags, c.cs, c.rip].reverse =
      (c.registers (BitVec.ofNat 64 i) (err.getD 0)).words := rfl
  unfold atDispatch Processor.enter
  rw [execAll_entry _ _ h (by rw [toNat_align]; exact hroom), hwords, toNat_align]
  rfl

theorem frameAt_add (hroom : Room rsp0 c) :
    frameAt rsp0 c + frameSize = stackTop (c.entrySp rsp0).toNat := Nat.sub_add_cancel hroom

theorem frameAt_le (hroom : Room rsp0 c) : frameAt rsp0 c + frameSize ≤ 2 ^ 64 := by
  have hlt := (c.entrySp rsp0).isLt
  rw [frameAt_add hroom, stackTop]
  omega

/-- Whatever the C code leaves in the registers, the CPU goes on with those of the struct that
`int_dispatch` returns. -/
theorem afterDispatch_eq (clobbered : Gpr → BitVec 64) (m : Memory) {ret : BitVec 64}
    (h : ret.toNat + frameSize ≤ 2 ^ 64) :
    afterDispatch clobbered m ret = Processor.ofRegisters (Registers.ofMemory m ret.toNat) m := by
  let s : StackMachine Gpr := ⟨Function.update clobbered .rax ret, ret, m⟩
  have hpop : s.Popped popped (s.execAll (popped.map .pop)) :=
    s.execAll_pops (by decide) (le_trans (Nat.add_le_add_left (by decide) _) h)
  have hsp : (s.execAll (popped.map .pop)).sp + 16 = ret + 136#64 := by
    rw [hpop.sp]
    change ret + 120#64 + 16#64 = ret + 136#64
    rw [BitVec.add_assoc]
    rfl
  have hret : (ret + 136#64).toNat = ret.toNat + 136 := by
    unfold frameSize at h
    bv_omega
  have hrun : afterDispatch clobbered m ret = Processor.iretq
      { s.execAll (popped.map .pop) with sp := ret + 136#64 } := by
    rw [← hsp]
    rfl
  have hregs : (s.execAll (popped.map .pop)).regs =
      (Processor.ofRegisters (Registers.ofMemory m ret.toNat) m).regs := by
    have hwords := hpop.words
    simp only [popped, List.map_cons, List.map_nil, List.length_cons, List.length_nil, loadWords,
      List.cons.injEq, and_true] at hwords
    obtain ⟨h15, h14, h13, h12, h11, h10, h9, h8, hbp, hdi, hsi, hdx, hcx, hbx, hax⟩ := hwords
    funext r
    cases r with
    | rax => exact hax
    | rbx => exact hbx
    | rcx => exact hcx
    | rdx => exact hdx
    | rsi => exact hsi
    | rdi => exact hdi
    | rbp => exact hbp
    | r8 => exact h8
    | r9 => exact h9
    | r10 => exact h10
    | r11 => exact h11
    | r12 => exact h12
    | r13 => exact h13
    | r14 => exact h14
    | r15 => exact h15
  rw [hrun, Processor.iretq, hpop.memory, hret, hregs]
  rfl

theorem ofMemory_pushFrame (m : Memory) (rsp : Nat) (regs : Registers) :
    Registers.ofMemory (pushFrame m rsp regs) (stackTop rsp - frameSize) = regs :=
  Registers.ofMemory_storeWords m _ regs

theorem interrupt_eq {handlers : Nat → Option IrqHandler} {clobbered : Gpr → BitVec 64}
    (h : Suits i err) (hroom : Room rsp0 c) :
    interrupt handlers clobbered rsp0 offset i err c =
      (handlers i).map fun handler =>
        let m := handler (pushFrame c.memory (c.entrySp rsp0).toNat
          (c.registers (BitVec.ofNat 64 i) (err.getD 0))) (frameAt rsp0 c)
        Processor.ofRegisters (Registers.ofMemory m (frameAt rsp0 c)) m := by
  have hle := frameAt_le hroom
  have hframe : (BitVec.ofNat 64 (frameAt rsp0 c)).toNat = frameAt rsp0 c := by
    rw [BitVec.toNat_ofNat]
    unfold frameSize at hle
    omega
  have hvect : (BitVec.ofNat 64 i).toNat = i := by
    have hi := h.1
    rw [BitVec.toNat_ofNat]
    omega
  have hseen := ofMemory_pushFrame c.memory (c.entrySp rsp0).toNat
    (c.registers (BitVec.ofNat 64 i) (err.getD 0))
  have hcall : intDispatch handlers (pushFrame c.memory (c.entrySp rsp0).toNat
      (c.registers (BitVec.ofNat 64 i) (err.getD 0))) (BitVec.ofNat 64 (frameAt rsp0 c)) =
      (handlers i).map fun handler => (handler (pushFrame c.memory (c.entrySp rsp0).toNat
        (c.registers (BitVec.ofNat 64 i) (err.getD 0))) (frameAt rsp0 c),
        BitVec.ofNat 64 (frameAt rsp0 c)) := by
    unfold intDispatch
    rw [hframe, frameAt, hseen, Processor.registers, hvect]
    cases handlers i with
    | none => rfl
    | some handler => rfl
  unfold interrupt
  rw [atDispatch_eq h hroom]
  simp only [Function.update_self, hcall]
  cases handlers i with
  | none => rfl
  | some handler =>
    have hback := afterDispatch_eq clobbered (handler (pushFrame c.memory (c.entrySp rsp0).toNat
      (c.registers (BitVec.ofNat 64 i) (err.getD 0))) (frameAt rsp0 c))
      (show (BitVec.ofNat 64 (frameAt rsp0 c)).toNat + frameSize ≤ 2 ^ 64 by rw [hframe]; exact hle)
    rw [hframe] at hback
    exact congrArg some hback

/-- An interrupt of any code calls the handler of its vector with the address, aligned to 16 bytes,
of a struct that holds the registers of that code, and memory is otherwise as it was. The CPU goes
on with the registers that the handler left in the struct, whatever the compiled code did with the
registers; so a handler that leaves the struct alone is not noticed. -/
theorem interrupt_hands_over {handlers : Nat → Option IrqHandler} {handler : IrqHandler}
    (clobbered : Gpr → BitVec 64) (h : Suits i err) (hroom : Room rsp0 c)
    (hh : handlers i = some handler) : ∃ m, frameAt rsp0 c % 16 = 0 ∧
      Registers.ofMemory m (frameAt rsp0 c) = c.registers (BitVec.ofNat 64 i) (err.getD 0) ∧
      (∀ x, x < frameAt rsp0 c ∨ frameAt rsp0 c + frameSize ≤ x → m x = c.memory x) ∧
      interrupt handlers clobbered rsp0 offset i err c =
        some (.ofRegisters (.ofMemory (handler m (frameAt rsp0 c)) (frameAt rsp0 c))
          (handler m (frameAt rsp0 c))) ∧
      ((∀ x, frameAt rsp0 c ≤ x → x < frameAt rsp0 c + frameSize →
          handler m (frameAt rsp0 c) x = m x) →
        interrupt handlers clobbered rsp0 offset i err c =
          some { c with memory := handler m (frameAt rsp0 c) }) := by
  have hseen := ofMemory_pushFrame c.memory (c.entrySp rsp0).toNat
    (c.registers (BitVec.ofNat 64 i) (err.getD 0))
  have hrun : interrupt handlers clobbered rsp0 offset i err c = _ := interrupt_eq h hroom
  rw [hh, Option.map_some] at hrun
  refine ⟨_, ?_, hseen, ?_, hrun, ?_⟩
  · have htop := stackTop_mod (c.entrySp rsp0).toNat
    have hadd := frameAt_add hroom
    unfold frameSize at hadd
    omega
  · intro x hx
    apply storeWords_outside
    exact hx
  · intro hleaves
    have hsame := (Registers.ofMemory_congr hleaves).trans hseen
    rw [hrun]
    simp only [hsame, Processor.ofRegisters_registers]

/-- A handler that writes below the struct. -/
def belowHandler : IrqHandler := fun m regs => m.store64 (regs - 8) 1

/-- A page fault in ring 3. -/
theorem page_fault_hands_over : ∃ m, frameAt 0x100000 (.user 0x7000) % 16 = 0 ∧
    Registers.ofMemory m (frameAt 0x100000 (.user 0x7000)) = (Processor.user 0x7000).registers 14 6 ∧
    interrupt (fun _ => some belowHandler) (fun _ => 0) 0x100000 0 14 (some 6) (.user 0x7000) =
      some { Processor.user 0x7000 with
        memory := m.store64 (frameAt 0x100000 (.user 0x7000) - 8) 1 } := by
  have hframe : frameAt 0x100000 (.user 0x7000) = 0xfff50 := by decide
  have hsuits : Suits 14 (some 6) := ⟨by decide, by decide⟩
  have hroom : Room 0x100000 (.user 0x7000) := show 176 ≤ 0x100000 by decide
  obtain ⟨m, haligned, hseen, _, _, hback⟩ := @interrupt_hands_over 0x100000 0 14 (some 6)
    (.user 0x7000) (fun _ => some belowHandler) belowHandler (fun _ => 0) hsuits hroom rfl
  refine ⟨m, haligned, hseen, hback fun x hx _ => Memory.store64_outside m 1 ?_⟩
  rw [hframe] at hx ⊢
  omega

end Interrupt

end UmbraOS
