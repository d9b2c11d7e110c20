import UmbraOS.InterruptStub

namespace UmbraOS

namespace Gdt

structure GdtEntry where
  limitLow : BitVec 16
  baseLow : BitVec 16
  baseMid : BitVec 8
  flags : BitVec 8
  limitHigh : BitVec 4
  granularity : BitVec 4
  baseHigh : BitVec 8

def GdtEntry.new (base limit : BitVec 32) (flags granularity : BitVec 8) : GdtEntry where
  limitLow := (limit &&& 0xffff#32).setWidth 16
  baseLow := (base &&& 0xffff#32).setWidth 16
  baseMid := ((base >>> 16) &&& 0xff#32).setWidth 8
  flags
  limitHigh := ((limit >>> 16) &&& 0xf#32).setWidth 4
  granularity := granularity.setWidth 4
  baseHigh := ((base >>> 24) &&& 0xff#32).setWidth 8

def GdtEntry.word (e : GdtEntry) : BitVec 64 :=
  e.baseHigh ++ e.granularity ++ e.limitHigh ++ e.flags ++ e.baseMid ++ e.baseLow ++ e.limitLow

/-- The descriptor of the TSS. The bits without a name are left as memory held them. -/
structure GdtSysEntry where
  limitLow : BitVec 16
  base0 : BitVec 16
  base1 : BitVec 8
  flags : BitVec 8
  limitHigh : BitVec 4
  granularity : BitVec 4
  base2 : BitVec 8
  base3 : BitVec 32
  unnamed : BitVec 8
  zero : BitVec 5
  unnamed' : BitVec 19

def GdtSysEntry.new (base : BitVec 64) (limit : BitVec 32) (flags granularity : BitVec 8)
    (unnamed : BitVec 8) (unnamed' : BitVec 19) : GdtSysEntry where
  limitLow := (limit &&& 0xffff#32).setWidth 16
  base0 := (base &&& 0xffff#64).setWidth 16
  base1 := ((base >>> 16) &&& 0xff#64).setWidth 8
  flags
  limitHigh := ((limit >>> 16) &&& 0xf#32).setWidth 4
  granularity := granularity.setWidth 4
  base2 := ((base >>> 24) &&& 0xff#64).setWidth 8
  base3 := ((base >>> 32) &&& 0xffffffff#64).setWidth 32
  unnamed
  zero := 0
  unnamed'

/-- The first eight bytes. -/
def GdtSysEntry.entry0 (e : GdtSysEntry) : BitVec 64 :=
  e.base2 ++ e.granularity ++ e.limitHigh ++ e.flags ++ e.base1 ++ e.base0 ++ e.limitLow

/-- The bytes from `base3` on. -/
def GdtSysEntry.entry1 (e : GdtSysEntry) : BitVec 64 := e.unnamed' ++ e.zero ++ e.unnamed ++ e.base3

def kernelCs : BitVec 16 := 0x08
def kernelDs : BitVec 16 := 0x10
def userCs : BitVec 16 := 0x18
def userDs : BitVec 16 := 0x20
def tssOffset : BitVec 16 := 0x28

/-- `gdt_entries` before the boot. -/
def gdtEntries : List GdtEntry :=
  [.new 0 0 0 0, .new 0 0 0b10011011 0b0010, .new 0 0 0b10010011 0b0010, .new 0 0 0b11111011 0b0010,
    .new 0 0 0b11110011 0b0010, .new 0 0 0 0, .new 0 0 0 0]

end Gdt

namespace Idt

structure IdtEntry where
  addressLow : BitVec 16
  selector : BitVec 16
  ist : BitVec 8
  flags : BitVec 8
  addressMid : BitVec 16
  addressHigh : BitVec 32
  reserved : BitVec 32

def IdtEntry.new (handler : BitVec 64) (flags : BitVec 8) : IdtEntry where
  addressLow := (handler &&& 0xffff#64).setWidth 16
  selector := Gdt.kernelCs
  ist := 0
  flags
  addressMid := ((handler >>> 16) &&& 0xffff#64).setWidth 16
  addressHigh := (handler >>> 32).setWidth 32
  reserved := 0

def IdtEntry.low (e : IdtEntry) : BitVec 64 :=
  e.addressMid ++ e.flags ++ e.ist ++ e.selector ++ e.addressLow

def IdtEntry.high (e : IdtEntry) : BitVec 64 := e.reserved ++ e.addressHigh

def syscallVect : Nat := 0xfe

/-- A turn of the loop in `init`. -/
def entryFor (intHandlers : Nat → BitVec 64) (i : Nat) : IdtEntry :=
  if i = syscallVect then .new (intHandlers i) 0b11101110 else .new (intHandlers i) 0b10001110

end Idt

/-- Where the linker puts the tables. -/
structure TableLayout where
  gdt : Nat
  idt : Nat
  tss : Nat

namespace Idt

/-- The loop in `init`, up to entry `n`. -/
def initLoop (base : Nat) (intHandlers : Nat → BitVec 64) (m : Memory) : Nat → Memory
  | 0 => m
  | i + 1 =>
    ((initLoop base intHandlers m i).store64 (base + 16 * i) (entryFor intHandlers i).low).store64
      (base + 16 * i + 8) (entryFor intHandlers i).high

def init (base : Nat) (intHandlers : Nat → BitVec 64) (m : Memory) : Memory :=
  initLoop base intHandlers m 256

end Idt

namespace Gdt

/-- `init_tss`, with `stack` the address of the pages that were allocated as the direct map shows
them. -/
def initTss (l : TableLayout) (stack : BitVec 64) (unnamed : BitVec 8) (unnamed' : BitVec 19)
    (m : Memory) : Memory :=
  let m := (m.fill l.tss 104 0#8).store64 (l.tss + 4) (stack + BitVec.ofNat 64 stackSize)
  let entry := GdtSysEntry.new (BitVec.ofNat 64 l.tss) 0xffff#32 0b10001001#8 0#8 unnamed unnamed'
  (m.store64 (l.gdt + 8 * 5) entry.entry0).store64 (l.gdt + 8 * 6) entry.entry1

end Gdt

/-- A segment descriptor as the CPU reads it. -/
structure Descriptor where
  type : BitVec 4
  segment : Bool
  dpl : BitVec 2
  present : Bool
  long : Bool
  opSize : Bool
deriving DecidableEq

def Descriptor.ofWord (w : BitVec 64) : Descriptor where
  type := w.extractLsb' 40 4
  segment := w.getLsbD 44
  dpl := w.extractLsb' 45 2
  present := w.getLsbD 47
  long := w.getLsbD 53
  opSize := w.getLsbD 54

/-- A code segment for 64-bit code. -/
def Descriptor.code64 (d : Descriptor) : Bool := d.segment && d.type.getLsbD 3 && d.long && !d.opSize

def Descriptor.conforming (d : Descriptor) : Bool := d.type.getLsbD 2

def Descriptor.writable (d : Descriptor) : Bool := d.segment && !d.type.getLsbD 3 && d.type.getLsbD 1

/-- An entry of the IDT as the CPU reads it. -/
structure Gate where
  offset : BitVec 64
  selector : BitVec 16
  ist : BitVec 3
  type : BitVec 4
  dpl : BitVec 2
  present : Bool

def Gate.ofWords (low high : BitVec 64) : Gate where
  offset := high.extractLsb' 0 32 ++ low.extractLsb' 48 16 ++ low.extractLsb' 0 16
  selector := low.extractLsb' 16 16
  ist := low.extractLsb' 32 3
  type := low.extractLsb' 40 4
  dpl := low.extractLsb' 45 2
  present := low.getLsbD 47

/-- `lidt`, `lgdt` and `ltr` set these. -/
structure TableRegisters where
  idtBase : Nat
  idtLimit : Nat
  gdtBase : Nat
  gdtLimit : Nat
  tssBase : Nat

/-- A fault of the CPU: its vector and error code. -/
structure Fault where
  vector : Nat
  code : Nat
deriving DecidableEq

namespace TableRegisters

/-- The descriptor of a selector that is not null and refers to the GDT. -/
def descriptor (t : TableRegisters) (m : Memory) (selector : BitVec 16) : Option Descriptor :=
  if selector.toNat < 4 ∨ selector.getLsbD 2 ∨ t.gdtLimit < selector.toNat / 8 * 8 + 7 then none
  else some (.ofWord (m.load64 (t.gdtBase + selector.toNat / 8 * 8)))

/-- `ltr`: the base of the TSS, from a descriptor of an available 64-bit TSS. The busy bit that the
instruction sets in that descriptor is left out; no other entry is written. -/
def ltr (gdtBase gdtLimit : Nat) (m : Memory) (selector : BitVec 16) : Option Nat :=
  let low := m.load64 (gdtBase + selector.toNat / 8 * 8)
  let high := m.load64 (gdtBase + selector.toNat / 8 * 8 + 8)
  if gdtLimit < selector.toNat / 8 * 8 + 15 ∨ low.extractLsb' 40 5 ≠ 0b01001#5 ∨ !low.getLsbD 47 ∨
      high.extractLsb' 40 5 ≠ 0 then none
  else some (high.extractLsb' 0 32 ++ low.extractLsb' 56 8 ++ low.extractLsb' 16 24 : BitVec 64).toNat

end TableRegisters

namespace Processor

def cpl (c : Processor) : BitVec 2 := c.cs.extractLsb' 0 2

/-- The start of an interrupt's code on a stack whose pointer is `start`. -/
def arrive (c : Processor) (inner : Bool) (start selector offset clears : BitVec 64)
    (err : Option (BitVec 64)) : Processor where
  toStackMachine := StackMachine.pushWords ⟨c.regs, start &&& ~~~15#64, c.memory⟩
    ([c.ss, c.sp, c.rflags, c.cs, c.rip] ++ err.toList)
  rip := offset
  cs := selector
  rflags := c.rflags &&& ~~~clears
  ss := if inner then 0 else c.ss

/-- The delivery of an interrupt; `software` tells the instruction `int` from the others. -/
def deliver (t : TableRegisters) (software : Bool) (v : Nat) (err : Option (BitVec 64)) (c : Processor) :
    Except Fault Processor :=
  if t.idtLimit < 16 * v + 15 then .error ⟨13, 8 * v + 2⟩
  else
    let gate := Gate.ofWords (c.memory.load64 (t.idtBase + 16 * v)) (c.memory.load64 (t.idtBase + 16 * v + 8))
    if software ∧ gate.dpl < c.cpl then .error ⟨13, 8 * v + 2⟩
    else if gate.type ≠ 0xe ∧ gate.type ≠ 0xf then .error ⟨13, 8 * v + 2⟩
    else if ¬gate.present then .error ⟨11, 8 * v + 2⟩
    else
      match t.descriptor c.memory gate.selector with
      | none => .error ⟨13, gate.selector.toNat / 8 * 8⟩
      | some d =>
        if ¬d.code64 ∨ c.cpl < d.dpl then .error ⟨13, gate.selector.toNat / 8 * 8⟩
        else if ¬d.present then .error ⟨11, gate.selector.toNat / 8 * 8⟩
        else
          let inner := !d.conforming && decide (d.dpl < c.cpl)
          let rpl := if d.conforming then c.cpl else d.dpl
          let start :=
            if gate.ist ≠ 0 then c.memory.load64 (t.tssBase + 36 + 8 * (gate.ist.toNat - 1))
            else if inner then c.memory.load64 (t.tssBase + 4 + 8 * d.dpl.toNat)
            else c.sp
          let selector := (gate.selector &&& ~~~3#16).setWidth 64 ||| rpl.setWidth 64
          let clears := if gate.type = 0xe then gateFlags else gateFlags &&& ~~~0x200#64
          .ok (c.arrive inner start selector gate.offset clears err)

/-- The checks of `iretq` on the selectors that it loads. -/
def returns (t : TableRegisters) (m : Memory) (cpl : BitVec 2) (cs ss : BitVec 64) : Bool :=
  match t.descriptor m (cs.setWidth 16) with
  | none => false
  | some d =>
    let rpl := cs.extractLsb' 0 2
    d.code64 && d.present && decide (cpl ≤ rpl) &&
      (if d.conforming then decide (d.dpl ≤ rpl) else decide (d.dpl = rpl)) &&
      match t.descriptor m (ss.setWidth 16) with
      | none => decide (ss.setWidth 16 = 0#16) && decide (rpl ≠ 3)
      | some data => data.writable && data.present && decide (data.dpl = rpl) &&
        decide (ss.extractLsb' 0 2 = rpl)

end Processor

theorem setWidth_and_mask {w : Nat} (x : BitVec w) (n : Nat) :
    (x &&& BitVec.ofNat w (2 ^ n - 1)).setWidth n = x.setWidth n := by
  apply BitVec.eq_of_getLsbD_eq
  intro i hi
  simp only [BitVec.getLsbD_setWidth, BitVec.getLsbD_and, BitVec.getLsbD_ofNat,
    Nat.testBit_two_pow_sub_one, hi]
  by_cases hw : i < w
  · simp [hw]
  · simp [BitVec.getLsbD_of_ge x i (by omega)]

/-- The three parts of an address make up the address. -/
theorem address_parts (x : BitVec 64) :
    ((x >>> 32).setWidth 32 ++ (x >>> 16).setWidth 16 ++ x.setWidth 16 : BitVec 64) = x := by
  grind

theorem Gate.ofWords_entry (e : Idt.IdtEntry) : Gate.ofWords e.low e.high =
    ⟨e.addressHigh ++ e.addressMid ++ e.addressLow, e.selector, e.ist.extractLsb' 0 3,
      e.flags.extractLsb' 0 4, e.flags.extractLsb' 5 2, e.flags.getLsbD 7⟩ := by
  have hhigh : e.high.extractLsb' 0 32 = e.addressHigh := BitVec.extractLsb'_append_eq_right
  have hlow : e.low.extractLsb' 0 16 = e.addressLow := BitVec.extractLsb'_append_eq_right
  have hmid : e.low.extractLsb' 48 16 = e.addressMid := by unfold Idt.IdtEntry.low; grind
  have hsel : e.low.extractLsb' 16 16 = e.selector := by unfold Idt.IdtEntry.low; grind
  have hist : e.low.extractLsb' 32 3 = e.ist.extractLsb' 0 3 := by unfold Idt.IdtEntry.low; grind
  have htype : e.low.extractLsb' 40 4 = e.flags.extractLsb' 0 4 := by unfold Idt.IdtEntry.low; grind
  have hdpl : e.low.extractLsb' 45 2 = e.flags.extractLsb' 5 2 := by unfold Idt.IdtEntry.low; grind
  have hpresent : e.low.getLsbD 47 = e.flags.getLsbD 7 := by unfold Idt.IdtEntry.low; grind
  rw [Gate.ofWords, hhigh, hlow, hmid, hsel, hist, htype, hdpl, hpresent]

/-- The gate that the CPU reads from an entry of `init`: it leads to the handler, and only that of
the system calls is open to ring 3. -/
theorem Gate.ofWords_entryFor (intHandlers : Nat → BitVec 64) (i : Nat) :
    Gate.ofWords (Idt.entryFor intHandlers i).low (Idt.entryFor intHandlers i).high =
      ⟨intHandlers i, Gdt.kernelCs, 0, 0xe, if i = Idt.syscallVect then 3 else 0, true⟩ := by
  have hnew : ∀ flags : BitVec 8, Gate.ofWords (Idt.IdtEntry.new (intHandlers i) flags).low
      (Idt.IdtEntry.new (intHandlers i) flags).high = ⟨intHandlers i, Gdt.kernelCs, 0,
        flags.extractLsb' 0 4, flags.extractLsb' 5 2, flags.getLsbD 7⟩ := by
    intro flags
    have haddress := address_parts (intHandlers i)
    rw [← setWidth_and_mask (intHandlers i) 16, ← setWidth_and_mask (intHandlers i >>> 16) 16] at haddress
    rw [Gate.ofWords_entry]
    exact congrArg (fun offset => (⟨offset, Gdt.kernelCs, 0, flags.extractLsb' 0 4,
      flags.extractLsb' 5 2, flags.getLsbD 7⟩ : Gate)) haddress
  unfold Idt.entryFor
  split
  · exact hnew _
  · exact hnew _

theorem base_parts (x : BitVec 64) : ((x >>> 32).setWidth 32 ++ (x >>> 24).setWidth 8 ++
    ((x >>> 16).setWidth 8 ++ x.setWidth 16) : BitVec 64) = x := by
  grind

/-- The base that the CPU puts together from the two halves of the descriptor of the TSS. -/
theorem sysEntry_base (base : BitVec 64) (limit : BitVec 32) (flags granularity unnamed : BitVec 8)
    (unnamed' : BitVec 19) :
    let e := Gdt.GdtSysEntry.new base limit flags granularity unnamed unnamed'
    (e.entry1.extractLsb' 0 32 ++ e.entry0.extractLsb' 56 8 ++ e.entry0.extractLsb' 16 24 : BitVec 64) =
      base := by
  intro e
  have h3 : e.entry1.extractLsb' 0 32 = e.base3 := BitVec.extractLsb'_append_eq_right
  have h2 : e.entry0.extractLsb' 56 8 = e.base2 := by unfold Gdt.GdtSysEntry.entry0; grind
  have h10 : e.entry0.extractLsb' 16 24 = e.base1 ++ e.base0 := by unfold Gdt.GdtSysEntry.entry0; grind
  have hparts := base_parts base
  rw [← setWidth_and_mask (base >>> 32) 32, ← setWidth_and_mask (base >>> 24) 8,
    ← setWidth_and_mask (base >>> 16) 8, ← setWidth_and_mask base 16] at hparts
  rw [h3, h2, h10]
  exact hparts

theorem sysEntry_type (base : BitVec 64) (limit : BitVec 32) (flags granularity unnamed : BitVec 8)
    (unnamed' : BitVec 19) :
    let e := Gdt.GdtSysEntry.new base limit flags granularity unnamed unnamed'
    e.entry0.extractLsb' 40 5 = flags.extractLsb' 0 5 ∧ e.entry0.getLsbD 47 = flags.getLsbD 7 ∧
      e.entry1.extractLsb' 40 5 = 0 := by
  intro e
  have htype : e.entry0.extractLsb' 40 5 = e.flags.extractLsb' 0 5 := by
    unfold Gdt.GdtSysEntry.entry0
    grind
  have hpresent : e.entry0.getLsbD 47 = e.flags.getLsbD 7 := by
    unfold Gdt.GdtSysEntry.entry0
    grind
  have hzero : e.entry1.extractLsb' 40 5 = e.zero := by
    unfold Gdt.GdtSysEntry.entry1
    grind
  exact ⟨htype, hpresent, hzero⟩

/-- `ltr` finds the TSS that the descriptor was made for. -/
theorem ltr_sysEntry {gdt : Nat} {m : Memory} {base : BitVec 64} {unnamed : BitVec 8}
    {unnamed' : BitVec 19}
    (h0 : m.load64 (gdt + 8 * 5) = (Gdt.GdtSysEntry.new base 0xffff#32 0b10001001#8 0#8 unnamed
      unnamed').entry0)
    (h1 : m.load64 (gdt + 8 * 6) = (Gdt.GdtSysEntry.new base 0xffff#32 0b10001001#8 0#8 unnamed
      unnamed').entry1) : TableRegisters.ltr gdt 55 m Gdt.tssOffset = some base.toNat := by
  obtain ⟨htype, hpresent, hzero⟩ :=
    sysEntry_type base 0xffff#32 0b10001001#8 0#8 unnamed unnamed'
  have hbase := sysEntry_base base 0xffff#32 0b10001001#8 0#8 unnamed unnamed'
  have hlow : gdt + Gdt.tssOffset.toNat / 8 * 8 = gdt + 8 * 5 := rfl
  unfold TableRegisters.ltr
  simp only [hlow, h0, h1, htype, hpresent, hzero]
  rw [if_neg (by decide)]
  exact congrArg (fun b : BitVec 64 => some b.toNat) hbase

namespace Idt

theorem initLoop_outside {base n x : Nat} {intHandlers : Nat → BitVec 64} {m : Memory}
    (h : x < base ∨ base + 16 * n ≤ x) : initLoop base intHandlers m n x = m x := by
  induction n with
  | zero => rfl
  | succ n ih =>
    rw [initLoop, Memory.store64_outside _ _ (by omega), Memory.store64_outside _ _ (by omega),
      ih (by omega)]

theorem initLoop_entry {base n v : Nat} {intHandlers : Nat → BitVec 64} {m : Memory} (h : v < n) :
    (initLoop base intHandlers m n).load64 (base + 16 * v) = (entryFor intHandlers v).low ∧
    (initLoop base intHandlers m n).load64 (base + 16 * v + 8) = (entryFor intHandlers v).high := by
  induction n with
  | zero => omega
  | succ n ih =>
    rw [initLoop]
    by_cases hv : v = n
    · subst hv
      rw [Memory.load64_store64_disjoint _ _ (by omega), Memory.load64_store64, Memory.load64_store64]
      exact ⟨rfl, rfl⟩
    · rw [Memory.load64_store64_disjoint _ _ (by omega), Memory.load64_store64_disjoint _ _ (by omega),
        Memory.load64_store64_disjoint _ _ (by omega), Memory.load64_store64_disjoint _ _ (by omega)]
      exact ih (by omega)

end Idt

/-- The tables do not overlap. -/
structure TableLayout.Apart (l : TableLayout) : Prop where
  gdtIdt : l.gdt + 56 ≤ l.idt ∨ l.idt + 4096 ≤ l.gdt
  gdtTss : l.gdt + 56 ≤ l.tss ∨ l.tss + 104 ≤ l.gdt
  idtTss : l.idt + 4096 ≤ l.tss ∨ l.tss + 104 ≤ l.idt
  tss : l.tss < 2 ^ 64

/-- The tables in memory lead every interrupt to its handler, on the stack `rsp0` from ring 3. -/
structure Installed (t : TableRegisters) (m : Memory) (intHandlers : Nat → BitVec 64)
    (rsp0 : BitVec 64) : Prop where
  idtLimit : t.idtLimit = 0xfff
  gate : ∀ v, v < 256 → m.load64 (t.idtBase + 16 * v) = (Idt.entryFor intHandlers v).low ∧
    m.load64 (t.idtBase + 16 * v + 8) = (Idt.entryFor intHandlers v).high
  gdtLimit : t.gdtLimit = 55
  segments : loadWords m t.gdtBase 5 = (Gdt.gdtEntries.take 5).map Gdt.GdtEntry.word
  stack : m.load64 (t.tssBase + 4) = rsp0

/-- The memory after the parts of `_start` that make the tables. -/
def bootTables (l : TableLayout) (intHandlers : Nat → BitVec 64) (stack : BitVec 64)
    (unnamed : BitVec 8) (unnamed' : BitVec 19) (m : Memory) : Memory :=
  Gdt.initTss l stack unnamed unnamed' (Idt.init l.idt intHandlers m)

/-- `gdt.load()`, `idt.load()` and `tss_load(TSS_OFFSET)`. -/
def loadTables (l : TableLayout) (m : Memory) : Option TableRegisters :=
  (TableRegisters.ltr l.gdt 55 m Gdt.tssOffset).map fun tssBase => ⟨l.idt, 0xfff, l.gdt, 55, tssBase⟩

theorem initTss_outside {l : TableLayout} {stack : BitVec 64} {unnamed : BitVec 8}
    {unnamed' : BitVec 19} {m : Memory} {x : Nat} (ht : x < l.tss ∨ l.tss + 104 ≤ x)
    (hg : x < l.gdt + 40 ∨ l.gdt + 56 ≤ x) : Gdt.initTss l stack unnamed unnamed' m x = m x := by
  unfold Gdt.initTss
  rw [Memory.store64_outside _ _ (by omega), Memory.store64_outside _ _ (by omega),
    Memory.store64_outside _ _ (by omega), Memory.fill_outside _ _ ht]

/-- The registers for the tables at their places. -/
def TableLayout.registers (l : TableLayout) : TableRegisters := ⟨l.idt, 0xfff, l.gdt, 55, l.tss⟩

theorem boot_installs {l : TableLayout} {intHandlers : Nat → BitVec 64} (stack : BitVec 64)
    (unnamed : BitVec 8) (unnamed' : BitVec 19) {m : Memory} (hl : l.Apart)
    (hg : loadWords m l.gdt 7 = Gdt.gdtEntries.map Gdt.GdtEntry.word) :
    loadTables l (bootTables l intHandlers stack unnamed unnamed' m) = some l.registers ∧
      Installed l.registers (bootTables l intHandlers stack unnamed unnamed' m) intHandlers
        (stack + BitVec.ofNat 64 stackSize) := by
  obtain ⟨hgi, hgt, hit, htss⟩ := hl
  have hltr : TableRegisters.ltr l.gdt 55 (bootTables l intHandlers stack unnamed unnamed' m)
      Gdt.tssOffset = some (BitVec.ofNat 64 l.tss).toNat := by
    apply ltr_sysEntry
    · unfold bootTables Gdt.initTss
      rw [Memory.load64_store64_disjoint _ _ (by omega), Memory.load64_store64]
    · unfold bootTables Gdt.initTss
      rw [Memory.load64_store64]
  rw [BitVec.toNat_ofNat, Nat.mod_eq_of_lt htss] at hltr
  refine ⟨by rw [loadTables, hltr]; rfl, rfl, ?_, rfl, ?_, ?_⟩
  · intro v hv
    dsimp only [TableLayout.registers]
    have hout : ∀ x, l.idt ≤ x → x < l.idt + 4096 →
        bootTables l intHandlers stack unnamed unnamed' m x = Idt.init l.idt intHandlers m x :=
      fun x hx hlt => initTss_outside (by omega) (by omega)
    obtain ⟨hlow, hhigh⟩ := @Idt.initLoop_entry l.idt 256 v intHandlers m hv
    refine ⟨?_, ?_⟩
    · rw [← hlow]
      exact Memory.load64_congr fun x hx hlt => hout x (by omega) (by omega)
    · rw [← hhigh]
      exact Memory.load64_congr fun x hx hlt => hout x (by omega) (by omega)
  · dsimp only [TableLayout.registers]
    rw [List.map_take, ← hg, take_loadWords m l.gdt (show 5 ≤ 7 by decide)]
    apply loadWords_congr
    intro x hx hlt
    rw [bootTables, initTss_outside (by omega) (by omega), Idt.init, Idt.initLoop_outside (by omega)]
  · dsimp only [TableLayout.registers]
    unfold bootTables Gdt.initTss
    rw [Memory.load64_store64_disjoint _ _ (by omega), Memory.load64_store64_disjoint _ _ (by omega),
      Memory.load64_store64]

/-- What is written elsewhere leaves the tables as they are. -/
theorem Installed.congr {t : TableRegisters} {m m' : Memory} {intHandlers : Nat → BitVec 64}
    {rsp0 : BitVec 64} (h : Installed t m intHandlers rsp0)
    (hidt : ∀ x, t.idtBase ≤ x → x < t.idtBase + 4096 → m' x = m x)
    (hgdt : ∀ x, t.gdtBase ≤ x → x < t.gdtBase + 40 → m' x = m x)
    (htss : ∀ x, t.tssBase + 4 ≤ x → x < t.tssBase + 12 → m' x = m x) :
    Installed t m' intHandlers rsp0 := by
  refine ⟨h.idtLimit, ?_, h.gdtLimit, ?_, ?_⟩
  · intro v hv
    obtain ⟨hlow, hhigh⟩ := h.gate v hv
    rw [← hlow, ← hhigh]
    exact ⟨Memory.load64_congr fun x hx hlt => hidt x (by omega) (by omega),
      Memory.load64_congr fun x hx hlt => hidt x (by omega) (by omega)⟩
  · rw [← h.segments]
    exact loadWords_congr fun x hx hlt => hgdt x hx (by omega)
  · rw [← h.stack]
    exact Memory.load64_congr fun x hx hlt => htss x hx (by omega)

/-- The selectors of the kernel's code and of the tasks'; the stack segment is null in ring 0 after
an interrupt from ring 3. -/
def Selectors (cs ss : BitVec 64) : Prop :=
  cs = 0x08 ∧ (ss = 0x10 ∨ ss = 0) ∨ cs = 0x1b ∧ ss = 0x23

/-- The code segments of the two rings. -/
def codeSegment (dpl : BitVec 2) : Descriptor := ⟨0b1011, true, dpl, true, true, false⟩

def dataSegment (dpl : BitVec 2) : Descriptor := ⟨0b0011, true, dpl, true, true, false⟩

section Delivery

variable {t : TableRegisters} {m : Memory} {intHandlers : Nat → BitVec 64} {rsp0 : BitVec 64}

/-- The segments that the selectors stand for. -/
theorem Installed.descriptors (h : Installed t m intHandlers rsp0) :
    t.descriptor m 0x08 = some (codeSegment 0) ∧ t.descriptor m 0x10 = some (dataSegment 0) ∧
    t.descriptor m 0x1b = some (codeSegment 3) ∧ t.descriptor m 0x23 = some (dataSegment 3) ∧
    t.descriptor m 0 = none := by
  have hwords := h.segments
  simp only [loadWords, Gdt.gdtEntries, List.take, List.map, List.cons.injEq, and_true] at hwords
  obtain ⟨_, h8, h10, h18, h20⟩ := hwords
  have hat : ∀ (selector : BitVec 16) (w : BitVec 64),
      ¬(selector.toNat < 4 ∨ selector.getLsbD 2 = true ∨ 55 < selector.toNat / 8 * 8 + 7) →
      m.load64 (t.gdtBase + selector.toNat / 8 * 8) = w → t.descriptor m selector = some (.ofWord w) := by
    intro selector w hsel hw
    unfold TableRegisters.descriptor
    rw [h.gdtLimit, if_neg hsel, hw]
  refine ⟨?_, ?_, ?_, ?_, rfl⟩
  · rw [hat 0x08 _ (by decide) h8]
    decide
  · rw [hat 0x10 _ (by decide) h10]
    decide
  · rw [hat 0x1b _ (by decide) h18]
    decide
  · rw [hat 0x23 _ (by decide) h20]
    decide

/-- The two privilege levels of the code that runs. -/
theorem Selectors.cpl {c : Processor} (h : Selectors c.cs c.ss) :
    c.ring3 = false ∧ c.cpl = 0 ∨ c.ring3 = true ∧ c.cpl = 3 := by
  unfold Processor.ring3 Processor.cpl
  rcases h with ⟨hcs, _⟩ | ⟨hcs, _⟩
  · rw [hcs]
    exact Or.inl ⟨by decide, by decide⟩
  · rw [hcs]
    exact Or.inr ⟨by decide, by decide⟩

/-- An interrupt leads to the handler of its vector, in ring 0 on the stack of the TSS if it comes
from ring 3; but there the instruction `int` is for system calls only. -/
theorem Installed.deliver {c : Processor} (h : Installed t c.memory intHandlers rsp0)
    (hs : Selectors c.cs c.ss) (software : Bool) {v : Nat} (err : Option (BitVec 64)) (hv : v < 256) :
    c.deliver t software v err =
      if software = true ∧ c.ring3 = true ∧ v ≠ Idt.syscallVect then .error ⟨13, 8 * v + 2⟩
      else .ok (c.enter rsp0 0x08 (intHandlers v) err) := by
  obtain ⟨hlow, hhigh⟩ := h.gate v hv
  have hcode : t.descriptor c.memory Gdt.kernelCs = some (codeSegment 0) := h.descriptors.1
  have hdpl : (if v = Idt.syscallVect then (3 : BitVec 2) else 0) < c.cpl ↔
      c.ring3 = true ∧ v ≠ Idt.syscallVect := by
    rcases hs.cpl with ⟨hring, hcpl⟩ | ⟨hring, hcpl⟩
    · rw [hring, hcpl]
      split <;> simp
    · rw [hring, hcpl]
      split
      next hv => simp [hv]
      next hv => simp [hv]
  unfold Processor.deliver
  rw [h.idtLimit, if_neg (by omega), hlow, hhigh, Gate.ofWords_entryFor]
  simp only [hcode, hdpl]
  split
  next => rfl
  next =>
    have hinner : (!(codeSegment 0).conforming && decide ((codeSegment 0).dpl < c.cpl)) = c.ring3 := by
      rcases hs.cpl with ⟨hring, hcpl⟩ | ⟨hring, hcpl⟩
      · rw [hring, hcpl]
        decide
      · rw [hring, hcpl]
        decide
    have hchecks : ¬(¬(codeSegment 0).code64 = true ∨ c.cpl < (codeSegment 0).dpl) := by
      rcases hs.cpl with ⟨_, hcpl⟩ | ⟨_, hcpl⟩
      · rw [hcpl]
        decide
      · rw [hcpl]
        decide
    have hstack : c.memory.load64 (t.tssBase + 4 + 8 * (codeSegment 0).dpl.toNat) = rsp0 := h.stack
    have hselector : (Gdt.kernelCs &&& ~~~3#16).setWidth 64 |||
        (if (codeSegment 0).conforming = true then c.cpl else (codeSegment 0).dpl).setWidth 64 =
        0x08#64 := by
      rw [if_neg (by decide)]
      decide
    rw [if_neg (by simp), if_neg (by simp), if_neg hchecks, if_neg (by simp [codeSegment]), hinner,
      if_neg (by simp), hselector, hstack, if_pos trivial]
    rfl

/-- `iretq` to the code of the kernel or of a task passes its checks. -/
theorem Installed.returns {cs ss : BitVec 64} (h : Installed t m intHandlers rsp0)
    (hs : Selectors cs ss) : Processor.returns t m 0 cs ss = true := by
  obtain ⟨h8, h10, h1b, h23, h0⟩ := h.descriptors
  unfold Processor.returns
  rcases hs with ⟨rfl, rfl | rfl⟩ | ⟨rfl, rfl⟩
  · have hcs : t.descriptor m (BitVec.setWidth 16 (0x08 : BitVec 64)) = some (codeSegment 0) := h8
    have hss : t.descriptor m (BitVec.setWidth 16 (0x10 : BitVec 64)) = some (dataSegment 0) := h10
    rw [hcs, hss]
    decide
  · have hcs : t.descriptor m (BitVec.setWidth 16 (0x08 : BitVec 64)) = some (codeSegment 0) := h8
    have hss : t.descriptor m (BitVec.setWidth 16 (0 : BitVec 64)) = none := h0
    rw [hcs, hss]
    decide
  · have hcs : t.descriptor m (BitVec.setWidth 16 (0x1b : BitVec 64)) = some (codeSegment 3) := h1b
    have hss : t.descriptor m (BitVec.setWidth 16 (0x23 : BitVec 64)) = some (dataSegment 3) := h23
    rw [hcs, hss]
    decide

/-- Memory in which the tables are as the boot left them, but for the descriptor of the TSS, which
`ltr` marks as busy. -/
def KeepsTables (l : TableLayout) (m m' : Memory) : Prop :=
  ∀ x, (l.idt ≤ x ∧ x < l.idt + 4096 ∨ l.gdt ≤ x ∧ x < l.gdt + 40 ∨ l.tss ≤ x ∧ x < l.tss + 104) →
    m' x = m x

/-- With the tables that the boot makes, the CPU takes every interrupt of the code of the kernel or of
a task to the handler of its vector in ring 0, on the stack allocated for the TSS if it comes from
ring 3, but for an instruction `int` of a task, which raises a general protection fault with every
vector other than that of the system calls; and it accepts the selectors with which an interrupt
returns to such code. -/
theorem boot_delivers {l : TableLayout} {m : Memory} (stack : BitVec 64) (unnamed : BitVec 8)
    (unnamed' : BitVec 19) (hl : l.Apart)
    (hg : loadWords m l.gdt 7 = Gdt.gdtEntries.map Gdt.GdtEntry.word) {c : Processor}
    (hc : KeepsTables l (bootTables l intHandlers stack unnamed unnamed' m) c.memory)
    (hs : Selectors c.cs c.ss) :
    loadTables l (bootTables l intHandlers stack unnamed unnamed' m) = some l.registers ∧
    (∀ software v err, v < 256 → c.deliver l.registers software v err =
      if software = true ∧ c.ring3 = true ∧ v ≠ Idt.syscallVect then .error ⟨13, 8 * v + 2⟩
      else .ok (c.enter (stack + BitVec.ofNat 64 stackSize) 0x08 (intHandlers v) err)) ∧
    ∀ cs ss, Selectors cs ss → Processor.returns l.registers c.memory 0 cs ss = true := by
  obtain ⟨hload, hinstalled⟩ := @boot_installs l intHandlers stack unnamed unnamed' m hl hg
  have hkept : Installed l.registers c.memory intHandlers (stack + BitVec.ofNat 64 stackSize) := by
    apply hinstalled.congr
    · intro x hx hlt
      exact hc x (Or.inl ⟨hx, hlt⟩)
    · intro x hx hlt
      exact hc x (Or.inr (Or.inl ⟨hx, hlt⟩))
    · intro x hx hlt
      exact hc x (Or.inr (Or.inr ⟨Nat.le_of_add_right_le hx,
        Nat.lt_of_lt_of_le hlt (Nat.add_le_add_left (by decide) _)⟩))
  exact ⟨hload, fun software v err hv => hkept.deliver hs software err hv,
    fun cs ss hsel => hkept.returns hsel⟩

/-- Tables at fixed places. -/
def sampleLayout : TableLayout := ⟨0x1000, 0x2000, 0x4000⟩

def sampleBoot : Memory :=
  bootTables sampleLayout (fun v => 0xffffffff80000000 + BitVec.ofNat 64 (16 * v)) 0xffff800000100000 0 0
    (storeWords (fun _ => 0) 0x1000 (Gdt.gdtEntries.map Gdt.GdtEntry.word))

/-- A task's system call arrives, its interrupt of the timer does not. -/
theorem task_delivers : ∃ c : Processor, c.memory = sampleBoot ∧ c.ring3 = true ∧
    c.deliver sampleLayout.registers true 0xfe none =
      .ok (c.enter 0xffff800000200000 0x08 0xffffffff80000fe0 none) ∧
    c.deliver sampleLayout.registers true 32 none = .error ⟨13, 258⟩ := by
  have hapart : sampleLayout.Apart := ⟨by decide, by decide, by decide, by decide⟩
  have hselectors : Selectors 0x1b 0x23 := Or.inr ⟨rfl, rfl⟩
  obtain ⟨_, hdeliver, _⟩ := boot_delivers (c := { Processor.user 0x7000 with memory := sampleBoot })
    0xffff800000100000 0 0 hapart (loadWords_storeWords _ _ _) (fun _ _ => rfl) hselectors
  refine ⟨{ Processor.user 0x7000 with memory := sampleBoot }, rfl, by decide, ?_, ?_⟩
  · rw [hdeliver true 0xfe none (by decide), if_neg (by decide)]
    rfl
  · rw [hdeliver true 32 none (by decide), if_pos (by decide)]

end Delivery

end UmbraOS
