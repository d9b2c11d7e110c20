import UmbraOS.AddressSpaces
import UmbraOS.DescriptorTables
import UmbraOS.ElfLoad
import UmbraOS.InitialStack

namespace UmbraOS

variable {P : PageSource pageSize}

namespace Machine

/-- The machine when bytes are written. -/
def withMem (m : Machine P) (mem : Memory) : Machine P := { m with mem := mem }

@[simp] theorem withMem_refused (m : Machine P) (mem : Memory) :
    (m.withMem mem).refused = m.refused := rfl

@[simp] theorem withMem_mem (m : Machine P) (mem : Memory) : (m.withMem mem).mem = mem := rfl

theorem withMem_pageAt (m : Machine P) (mem : Memory) (page : Nat) :
    (m.withMem mem).pageAt page = m.pageAt page := rfl

@[simp] theorem withMem_hhdm (m : Machine P) (mem : Memory) : (m.withMem mem).hhdm = m.hhdm := rfl

theorem withMem_ok {m : Machine P} (h : m.Ok) (mem : Memory) : (m.withMem mem).Ok :=
  ⟨h.pmm, h.aligned, h.window, h.bound⟩

end Machine

namespace AddressSpace

/-- The mapping of a range that serves a byte of it. -/
theorem find_rangeMappings {virtAddr turns k : Nat} (halign : pageSize ∣ virtAddr)
    (hend : virtAddr + turns * pageSize ≤ 2 ^ 48) (hk : k < turns * pageSize) (physAddr : Nat)
    (flags : BitVec 64) : (rangeMappings virtAddr physAddr turns flags).find?
        (fun x => Vmm.SamePage x.virt (virtAddr + k)) =
      some ⟨u64 (virtAddr + k / pageSize * pageSize), u64 (physAddr + k / pageSize * pageSize),
        flags⟩ := by
  have hpage : k / pageSize < turns := Nat.div_lt_of_lt_mul (by rwa [Nat.mul_comm] at hk)
  cases hfind : (rangeMappings virtAddr physAddr turns flags).find?
      (fun x => Vmm.SamePage x.virt (virtAddr + k)) with
  | none =>
    have hno := List.find?_eq_none.mp hfind _ (mem_rangeMappings.mpr ⟨k / pageSize, hpage, rfl⟩)
    exact absurd (decide_eq_true (Vmm.samePage_byte halign k)) hno
  | some x =>
    obtain ⟨i, hi, rfl⟩ := mem_rangeMappings.mp (List.mem_of_find?_eq_some hfind)
    have hfound := List.find?_some hfind
    have hsame : Vmm.SamePage (u64 (virtAddr + i * pageSize)) (virtAddr + k) :=
      of_decide_eq_true hfound
    have heq : i = k / pageSize := by
      obtain ⟨q, rfl⟩ := halign
      unfold Vmm.SamePage u64 pageSize at *
      omega
    rw [heq]

end AddressSpace

namespace Vmm

open Heap (Allocation Layout)

variable {root n : Nat} {L : Layout} {classes : List Nat} {h : Heap P} {live : List Allocation}

/-- A run of fresh pages that lies aside. -/
structure Taken (root : Nat) (m : Machine P) (L : Layout) (n page : Nat) (r : Nat × Machine P) :
    Prop where
  addr : r.1 = page * pageSize
  inside : page + n ≤ P.bound
  fresh : ∀ i, page ≤ i → i < page + n → ¬m.Used i
  spares : Spares root m L r.2 L
  aside : ∀ i, page ≤ i → i < page + n → Aside r.2 root L i
  entries : ∀ w, pte r.2 root w = pte m root w

theorem Sound.alloc (hs : Sound classes h root live L) (hn : 0 < n)
    (hr : (h.machine.alloc n).2.refused = false) :
    Sound classes ⟨(h.machine.alloc n).2, h.slabs⟩ root live L ∧
      ∃ page, Taken root h.machine L n page (h.machine.alloc n) := by
  have hm := hs.heap.ok
  have ha := Machine.alloc_spec hm hn
  generalize h.machine.alloc n = r at ha hr ⊢
  cases ha with
  | refused pmm ok used => cases hr
  | run page pmm ok positive inside fresh used =>
    have hok : Machine.Ok ⟨h.machine.mem, pmm, h.machine.hhdm, h.machine.refused⟩ :=
      ⟨ok, hm.aligned, hm.window, hm.bound⟩
    obtain ⟨hsound, hsame, hpte⟩ := hs.frame hok rfl (fun i hu => (used i).mpr (Or.inl hu))
      fun _ _ _ _ _ => rfl
    refine ⟨hsound, page, rfl, inside, fresh, ⟨rfl, fun i hi => ⟨⟨?_, hi.owner, ?_⟩, fun _ _ => rfl⟩⟩,
      fun i hle hlt => ⟨(used i).mpr (Or.inr ⟨hle, hlt⟩), ?_, ?_⟩, hpte⟩
    · exact (used i).mpr (Or.inl hi.used)
    · exact hsame.notTable.mpr hi.table
    · exact hs.heap.fresh_owner (fresh i hle hlt)
    · refine hsame.notTable.mpr fun xs hx hw => ?_
      exact fresh i hle hlt (hs.tables.used_of_walk hx hw)

end Vmm

def userStackBase : Nat := 0x00007ffffffff000

/-- The stack of a new task while it is filled, seen in the direct map. -/
abbrev UserStack := StackMachine Empty

namespace Task

/-! Tags of the auxiliary vector. -/

def atPhdr : BitVec 64 := 3#64

def atPhent : BitVec 64 := 4#64

def atPhnum : BitVec 64 := 5#64

def atEntry : BitVec 64 := 9#64

def atSecure : BitVec 64 := 23#64

/-- The arguments and the environment of every task are empty. -/
def argv : List (List Byte) := []

def envp : List (List Byte) := []

/-- A turn of the loops that copy strings; the byte behind a string is left as it was. -/
def copyString (s : UserStack) (string : List Byte) : UserStack :=
  let sp := s.sp - BitVec.ofNat 64 string.length - 1#64
  { s with sp, memory := s.memory.copy sp.toNat string.length fun i => string.getD i 0#8 }

/-- The loops that push pointers to strings, with what is left in `old_rsp`. -/
def pushPointers (oldRsp : BitVec 64) (s : UserStack) : List (List Byte) → BitVec 64 × UserStack
  | [] => (oldRsp, s)
  | string :: strings =>
    let oldRsp := oldRsp - (BitVec.ofNat 64 string.length + 1#64)
    pushPointers oldRsp (s.pushWord oldRsp) strings

def fillStack (auxv : Auxval) (top : UserStack) : UserStack :=
  let s := envp.foldl copyString top
  let s := argv.foldl copyString s
  let s := { s with sp := BitVec.ofNat 64 (alignDown s.sp.toNat 16) }
  let s := if (argv.length + envp.length) % 2 = 0 then { s with sp := s.sp - 8#64 } else s
  let s := s.pushWords [0#64, 0#64, 0#64, atSecure, BitVec.ofNat 64 auxv.atEntry, atEntry,
    BitVec.ofNat 64 auxv.atPhdr, atPhdr, BitVec.ofNat 64 auxv.atPhent, atPhent,
    BitVec.ofNat 64 auxv.atPhnum, atPhnum]
  let (oldRsp, s) := pushPointers (BitVec.ofNat 64 userStackBase) (s.pushWord 0#64) envp
  let (_, s) := pushPointers oldRsp (s.pushWord 0#64) argv
  s.pushWord (BitVec.ofNat 64 argv.length)

def stackFlags : BitVec 64 := ptePresent ||| pteWritable ||| pteNx ||| pteUser

def stackPages : Nat := stackSize / pageSize

/-- The registers of a new task after `memset`. -/
def zeroContext : Registers := ⟨0, 0, 0, 0, 0, 0, 0, 0, 0, 0, 0, 0, 0, 0, 0, 0, 0, 0, 0, 0, 0, 0⟩

/-- The stack pointer of a program whose stack lies at `phys`, and the machine when the stack is
filled. -/
def pushStack (m : Machine P) (phys : Nat) (auxv : Auxval) : BitVec 64 × Machine P :=
  let top := BitVec.ofNat 64 (m.physToVirt (phys + stackSize))
  let s := fillStack auxv ⟨Empty.elim, top, m.mem⟩
  (BitVec.ofNat 64 userStackBase - (top - s.sp), m.withMem s.memory)

/-- The parts of `Task::create` that are about the address space, the stack and the registers. `user` is
the auxiliary vector of a task in user mode. The blocks that `new` takes from the heap for the task, its
registers and its ring of events are left out. -/
def create (m : Machine P) (kernelSpace : AddressSpace) (entry : BitVec 64) (user : Option Auxval)
    (pageMap : Option AddressSpace) : AddressSpace × Registers × Machine P :=
  let s := match pageMap with
    | none => Vmm.newSpace m kernelSpace
    | some space => (space, m)
  let context := { zeroContext with iretRip := entry, iretFlags := 0x202 }
  let r := s.2.alloc stackPages
  match user with
  | some auxv =>
    let m := s.1.mapRange r.2 (userStackBase - stackSize) r.1 stackPages stackFlags
    let stack := pushStack m r.1 auxv
    (s.1, { context with
      iretRsp := stack.1
      iretCs := Gdt.userCs.setWidth 64 ||| 3#64
      iretSs := Gdt.userDs.setWidth 64 ||| 3#64 }, stack.2)
  | none =>
    (s.1, { context with
      iretRsp := BitVec.ofNat 64 (r.2.physToVirt (r.1 + stackSize))
      iretCs := Gdt.kernelCs.setWidth 64
      iretSs := Gdt.kernelDs.setWidth 64 }, r.2)

/-- What the stack of a new task says. -/
def initialStack (auxv : Auxval) : InitialStack where
  argv := []
  envp := []
  auxv := [(atPhnum, BitVec.ofNat 64 auxv.atPhnum), (atPhent, BitVec.ofNat 64 auxv.atPhent),
    (atPhdr, BitVec.ofNat 64 auxv.atPhdr), (atEntry, BitVec.ofNat 64 auxv.atEntry), (atSecure, 0#64)]

theorem initialStack_wellFormed (auxv : Auxval) : (initialStack auxv).WellFormed where
  argc := show 0 < 2 ^ 64 by decide
  envp p hp := by cases hp
  auxv e he := by
    simp only [initialStack, List.mem_cons, List.not_mem_nil, or_false] at he
    rcases he with rfl | rfl | rfl | rfl | rfl
    · exact show atPhnum ≠ InitialStack.atNull by decide
    · exact show atPhent ≠ InitialStack.atNull by decide
    · exact show atPhdr ≠ InitialStack.atNull by decide
    · exact show atEntry ≠ InitialStack.atNull by decide
    · exact show atSecure ≠ InitialStack.atNull by decide

theorem initialStack_length (auxv : Auxval) : (initialStack auxv).words.length = 15 := rfl

/-- The words of the stack end eight bytes below its top. -/
theorem fillStack_eq (auxv : Auxval) {regs : Empty → BitVec 64} {top : Nat} {memory : Memory}
    (halign : 16 ∣ top) (hlow : 128 ≤ top) (hhigh : top ≤ 2 ^ 64) :
    fillStack auxv ⟨regs, BitVec.ofNat 64 top, memory⟩ =
      ⟨regs, BitVec.ofNat 64 (top - 128), storeWords memory (top - 128) (initialStack auxv).words⟩ := by
  have haligned : alignDown (BitVec.ofNat 64 top).toNat 16 = (BitVec.ofNat 64 top).toNat := by
    obtain ⟨q, rfl⟩ := halign
    rw [BitVec.toNat_ofNat]
    unfold alignDown
    omega
  have hpad : BitVec.ofNat 64 (BitVec.ofNat 64 top).toNat - 8#64 = BitVec.ofNat 64 (top - 8) := by
    apply BitVec.eq_of_toNat_eq
    simp only [BitVec.toNat_sub, BitVec.toNat_ofNat]
    omega
  have hfill : fillStack auxv ⟨regs, BitVec.ofNat 64 top, memory⟩ =
      StackMachine.pushWords ⟨regs, BitVec.ofNat 64 (alignDown (BitVec.ofNat 64 top).toNat 16) - 8#64,
        memory⟩ (initialStack auxv).words.reverse := rfl
  have hpush := StackMachine.pushWords_below ⟨regs, BitVec.ofNat 64 (top - 8), memory⟩
    (by omega : top - 8 ≤ 2 ^ 64) rfl
    (show 8 * (initialStack auxv).words.reverse.length ≤ top - 8 from show 120 ≤ top - 8 by omega)
  rw [hfill, haligned, hpad, hpush, List.reverse_reverse, List.length_reverse, initialStack_length]
  rfl

/-- The registers with which a program starts. -/
def userContext (entry rsp : BitVec 64) : Registers :=
  { zeroContext with
    iretRip := entry
    iretFlags := 0x202
    iretRsp := rsp
    iretCs := Gdt.userCs.setWidth 64 ||| 3#64
    iretSs := Gdt.userDs.setWidth 64 ||| 3#64 }

/-- Where the arguments of a program lie. -/
def argumentsAt : Nat := userStackBase - 128

/-- The bytes that a program sees. -/
def view (space : AddressSpace) (m : Machine P) : Memory := fun a => (space.byteAt m a).getD 0#8

/-- A byte of the stack of a task. -/
def stackByte (x : Nat) : Nat := userStackBase - stackSize + x

/-- The stack of a new task: fresh frames, one for each page, that the program can write and not
execute, with its arguments at the stack pointer. -/
structure Stacked (space : AddressSpace) (m : Machine P) (auxv : Auxval) (m' : Machine P) : Prop where
  mapped : ∃ frame : Nat → Nat,
    (∀ i < stackPages, frame i < P.bound ∧ ¬m.Used (frame i)) ∧
    (∀ i < stackPages, ∀ j < stackPages, frame i = frame j → i = j) ∧
    ∀ x < stackSize, Vmm.pte m' space.pml4 (stackByte x) =
      BitVec.ofNat 64 (frame (x / pageSize) * pageSize) ||| stackFlags
  arguments : InitialStack.parse (loadWords (view space m') argumentsAt 16) =
    some (initialStack auxv)

/-- The calls of `map` for a new stack. -/
def stackMappings (phys : Nat) : List Mapping :=
  AddressSpace.rangeMappings (userStackBase - stackSize) phys stackPages stackFlags

theorem mapRange_stack (space : AddressSpace) (m : Machine P) (phys : Nat) :
    space.mapRange m (userStackBase - stackSize) phys stackPages stackFlags =
      space.mapAll m (stackMappings phys) :=
  space.mapRange_eq m _ _ stackPages stackFlags (show stackPages * pageSize < 2 ^ 64 by decide)

/-- The frames of a new stack when it is filled. -/
def pushArguments (m : Machine P) (page : Nat) (auxv : Auxval) : Machine P :=
  m.withMem (storeWords m.mem (m.pageAt (page + stackPages) - 128) (initialStack auxv).words)

/-- The stack pointer is as far below the base as the words reach. -/
theorem rsp_eq {top : Nat} (hlow : 128 ≤ top) (hhigh : top ≤ 2 ^ 64) :
    BitVec.ofNat 64 userStackBase - (BitVec.ofNat 64 top - BitVec.ofNat 64 (top - 128)) =
      BitVec.ofNat 64 argumentsAt := by
  have hused : BitVec.ofNat 64 top - BitVec.ofNat 64 (top - 128) = 128#64 := by
    apply BitVec.eq_of_toNat_eq
    simp only [BitVec.toNat_sub, BitVec.toNat_ofNat]
    omega
  rw [hused]
  decide

theorem pushStack_refused (m : Machine P) (phys : Nat) (auxv : Auxval) :
    (pushStack m phys auxv).2.refused = m.refused := by
  unfold pushStack
  exact m.withMem_refused _

theorem pushStack_eq {m : Machine P} {page : Nat} (auxv : Auxval) (hm : m.Ok)
    (hin : page + stackPages ≤ P.bound) : pushStack m (page * pageSize) auxv =
      (BitVec.ofNat 64 argumentsAt, pushArguments m page auxv) := by
  have hb := hm.bound
  have hw := hm.window
  obtain ⟨q, hq⟩ := hm.aligned
  have htop : m.physToVirt (page * pageSize + stackSize) = m.pageAt (page + stackPages) := by
    unfold Machine.physToVirt Machine.pageAt stackPages stackSize pageSize
    omega
  have hlow : 128 ≤ m.pageAt (page + stackPages) := by
    unfold Machine.pageAt stackPages stackSize pageSize
    omega
  have hhigh : m.pageAt (page + stackPages) ≤ 2 ^ 64 := by
    unfold Machine.pageAt pageSize at *
    omega
  have halign : 16 ∣ m.pageAt (page + stackPages) := by
    unfold Machine.pageAt pageSize
    omega
  unfold pushStack pushArguments
  rw [htop]
  generalize m.pageAt (page + stackPages) = top at hlow hhigh halign
  have hfill : fillStack auxv ⟨Empty.elim, BitVec.ofNat 64 top, m.mem⟩ = _ :=
    fillStack_eq auxv halign hlow hhigh
  have hrsp : _ = BitVec.ofNat 64 argumentsAt := rsp_eq hlow hhigh
  dsimp only
  rw [hfill, hrsp]

/-- A task in user mode. -/
theorem create_user_eq (m : Machine P) (kernelSpace : AddressSpace) (entry : BitVec 64) (auxv : Auxval)
    (space : AddressSpace) : create m kernelSpace entry (some auxv) (some space) =
      (space, userContext entry (pushStack (space.mapAll (m.alloc stackPages).2
        (stackMappings (m.alloc stackPages).1)) (m.alloc stackPages).1 auxv).1,
        (pushStack (space.mapAll (m.alloc stackPages).2
        (stackMappings (m.alloc stackPages).1)) (m.alloc stackPages).1 auxv).2) := by
  rw [create]
  generalize m.alloc stackPages = r
  dsimp only
  rw [mapRange_stack]
  generalize pushStack _ _ _ = stack
  rfl

section Stacked

open Vmm Heap

variable {h : Heap P} {space : AddressSpace} {live : List Allocation} {L : Layout} {page : Nat}
  {m m' : Machine P} {auxv : Auxval}

/-- No page is mapped where the stack goes. -/
def StackVacant (space : AddressSpace) (m : Machine P) : Prop :=
  ∀ x < stackSize, pte m space.pml4 (stackByte x) &&& ptePresent = 0#64

theorem stackPage_lt {x : Nat} (hx : x < stackSize) : x / pageSize < stackPages := by
  unfold stackPages pageSize stackSize at *
  omega

theorem StackVacant.congr (hv : StackVacant space m)
    (h : ∀ w, pte m' space.pml4 w = pte m space.pml4 w) : StackVacant space m' := by
  intro x hx
  rw [h]
  exact hv x hx

theorem stackFlags_addr : pteGetAddr stackFlags = 0#64 := by decide

theorem stackFlags_present : stackFlags &&& ptePresent ≠ 0#64 := by decide

theorem stackMappings_present {phys : Nat} (x : Mapping) (hx : x ∈ stackMappings phys) :
    x.flags &&& ptePresent ≠ 0#64 := by
  obtain ⟨i, -, rfl⟩ := AddressSpace.mem_rangeMappings.mp hx
  exact stackFlags_present

/-- The entry of a byte of a stack that is mapped. -/
theorem stack_entry (hm : m.Ok) (ht : Tables m space.pml4) (hv : StackVacant space m)
    (hin : page + stackPages ≤ P.bound)
    (hr : (space.mapAll m (stackMappings (page * pageSize))).refused = false) {x : Nat}
    (hx : x < stackSize) :
    pte (space.mapAll m (stackMappings (page * pageSize))) space.pml4 (stackByte x) =
      BitVec.ofNat 64 ((page + x / pageSize) * pageSize) ||| stackFlags := by
  have hnew := mapAll_pte hm ht stackMappings_present hr (stackByte x)
  have hsize : stackPages * pageSize = stackSize := by decide
  have hk : x < stackPages * pageSize := by omega
  have hfind : (stackMappings (page * pageSize)).find? (fun y => SamePage y.virt (stackByte x)) =
      some _ :=
    AddressSpace.find_rangeMappings (by decide) (by decide) hk (page * pageSize) stackFlags
  have hb := hm.bound
  have hlt := stackPage_lt hx
  have hphys : u64 (page * pageSize + x / pageSize * pageSize) = (page + x / pageSize) * pageSize := by
    rw [← Nat.add_mul]
    exact u64_of_lt (by unfold pageSize at *; omega)
  rw [if_neg (not_not.mpr (hv x hx)), hfind] at hnew
  rw [hnew, ← hphys]
  rfl

/-- The byte that a program sees in its stack. -/
theorem stack_view (hm : m'.Ok) (hin : page + stackPages ≤ P.bound) {x : Nat} (hx : x < stackSize)
    (he : pte m' space.pml4 (stackByte x) =
      BitVec.ofNat 64 ((page + x / pageSize) * pageSize) ||| stackFlags) :
    view space m' (stackByte x) = m'.mem (m'.pageAt page + x) := by
  have hb := hm.bound
  have hlt := stackPage_lt hx
  have hset : ¬pte m' space.pml4 (stackByte x) &&& ptePresent = 0#64 := by
    rw [he]
    exact present_or stackFlags_present
  have hframe : (pteGetAddr (pte m' space.pml4 (stackByte x))).toNat =
      (page + x / pageSize) * pageSize := by
    rw [he, pteGetAddr_entry (by omega) stackFlags_addr, BitVec.toNat_ofNat]
    exact Nat.mod_eq_of_lt (by unfold pageSize at *; omega)
  have hplace : m'.physToVirt ((page + x / pageSize) * pageSize) + stackByte x % pageSize =
      m'.pageAt page + x := by
    unfold Machine.physToVirt Machine.pageAt stackByte userStackBase stackSize pageSize
    omega
  simp only [view, AddressSpace.byteAt, if_neg hset, hframe, hplace]
  rfl

/-- A program finds the arguments at its stack pointer. -/
theorem arguments_read (hm : m.Ok) (hin : page + stackPages ≤ P.bound)
    (he : ∀ x < stackSize, pte (pushArguments m page auxv) space.pml4 (stackByte x) =
      BitVec.ofNat 64 ((page + x / pageSize) * pageSize) ||| stackFlags) :
    InitialStack.parse (loadWords (view space (pushArguments m page auxv)) argumentsAt 16) =
      some (initialStack auxv) := by
  have hok : (pushArguments m page auxv).Ok := Machine.withMem_ok hm _
  have hsame : loadWords (view space (pushArguments m page auxv)) argumentsAt 16 =
      loadWords (pushArguments m page auxv).mem (m.pageAt (page + stackPages) - 128) 16 := by
    refine loadWords_shift fun x hx => ?_
    have hbyte := stack_view hok hin (x := stackSize - 128 + x) (by unfold stackSize; omega)
      (he _ (by unfold stackSize; omega))
    have haddr : stackByte (stackSize - 128 + x) = argumentsAt + x := by
      unfold stackByte argumentsAt userStackBase stackSize
      omega
    have hplace : (pushArguments m page auxv).pageAt page + (stackSize - 128 + x) =
        m.pageAt (page + stackPages) - 128 + x := by
      rw [pushArguments, Machine.withMem_pageAt]
      unfold Machine.pageAt stackPages stackSize pageSize
      omega
    rw [haddr, hplace] at hbyte
    exact hbyte
  have hwords : (loadWords (pushArguments m page auxv).mem (m.pageAt (page + stackPages) - 128) 16).take
      15 = (initialStack auxv).words := by
    rw [take_loadWords _ _ (by omega), pushArguments, Machine.withMem_mem, ← initialStack_length auxv]
    exact loadWords_storeWords _ _ _
  rw [hsame, ← List.take_append_drop 15 (loadWords _ _ 16), hwords]
  exact InitialStack.parse_words (initialStack_wellFormed auxv) _

/-- What the creation of a task in user mode does to memory. -/
structure Created (h : Heap P) (space : AddressSpace) (live : List Allocation) (L : Layout)
    (entry : BitVec 64) (auxv : Auxval) (r : AddressSpace × Registers × Machine P) : Prop where
  addressSpace : r.1 = space
  context : r.2.1 = userContext entry (BitVec.ofNat 64 argumentsAt)
  sound : Sound Slab.sizes ⟨r.2.2, h.slabs⟩ space.pml4 live L
  spares : Spares space.pml4 h.machine L r.2.2 L
  stack : Stacked space h.machine auxv r.2.2
  kept : ∀ w, pte h.machine space.pml4 w &&& ptePresent ≠ 0#64 →
    pte r.2.2 space.pml4 w = pte h.machine space.pml4 w

/-- The stack of a task is its own. -/
theorem stacked_created (hv : StackVacant space h.machine) {r : Nat × Machine P}
    (hsound : Sound Slab.sizes ⟨r.2, h.slabs⟩ space.pml4 live L)
    (ht : Taken space.pml4 h.machine L stackPages page r)
    (hmap : space.mapAll r.2 (stackMappings (page * pageSize)) = m') (hr : m'.refused = false)
    (entry : BitVec 64) : Created h space live L entry auxv
      (space, userContext entry (BitVec.ofNat 64 argumentsAt), pushArguments m' page auxv) := by
  obtain ⟨hmapped, hspares⟩ := hsound.mapAll (stackMappings (page * pageSize))
  have hvacant : StackVacant space r.2 := hv.congr ht.entries
  have hentry := fun x => stack_entry hsound.heap.ok hsound.tables hvacant ht.inside (hmap ▸ hr) (x := x)
  have hpresent : ∀ w, pte r.2 space.pml4 w &&& ptePresent ≠ 0#64 →
      pte (space.mapAll r.2 (stackMappings (page * pageSize))) space.pml4 w = pte r.2 space.pml4 w :=
    fun w hw => mapAll_present hsound.heap.ok hsound.tables hw _
  simp only [hmap] at hmapped hspares hentry hpresent
  have hlast : page ≤ page + stackPages - 1 ∧ page + stackPages - 1 < page + stackPages := by
    have hpos : 0 < stackPages := by decide
    omega
  have hpages : ∀ i, i ≠ page + stackPages - 1 →
      Machine.KeepsPage m' (pushArguments m' page auxv) i := by
    intro i hi x hx
    refine storeWords_outside _ ?_
    rw [initialStack_length]
    unfold Machine.pageAt stackPages stackSize pageSize at *
    omega
  have hrun : ∀ i, page ≤ i → i < page + stackPages → Aside m' space.pml4 L i :=
    fun i hle hlt => (hspares.aside i (ht.aside i hle hlt)).1
  obtain ⟨hwritten, haside, hpte⟩ := hmapped.fillAside (fun i _ hno =>
    hpages i fun hi => hno (hi ▸ hrun _ hlast.1 hlast.2))
  refine ⟨rfl, rfl, hwritten, ?_, ⟨⟨fun i => page + i, fun i hi => ?_, fun i _ j _ he => ?_,
    fun x hx => (hpte _).trans (hentry x hx)⟩, ?_⟩, fun w hw => ?_⟩
  · have hall := ht.spares.trans hspares
    refine ⟨(m'.withMem_hhdm _).trans hall.hhdm, fun i hi => ?_⟩
    obtain ⟨hi', hkeep⟩ := hall.aside i hi
    have hout : i ≠ page + stackPages - 1 := fun he =>
      ht.fresh i (by omega) (by omega) hi.used
    exact ⟨haside i hi', hkeep.trans (hpages i hout) hall.hhdm⟩
  · have hin := ht.inside
    have hlt : page + i < page + stackPages := Nat.add_lt_add_left hi page
    exact ⟨Nat.lt_of_lt_of_le hlt hin, ht.fresh _ (Nat.le_add_right _ _) hlt⟩
  · exact Nat.add_left_cancel he
  · exact arguments_read hmapped.heap.ok ht.inside fun x hx => (hpte _).trans (hentry x hx)
  · rw [← ht.entries] at hw ⊢
    exact (hpte w).trans (hpresent w hw)

theorem create_user (hs : Sound Slab.sizes h space.pml4 live L) (hv : StackVacant space h.machine)
    (kernelSpace : AddressSpace) (entry : BitVec 64)
    (hr : (create h.machine kernelSpace entry (some auxv) (some space)).2.2.refused = false) :
    Created h space live L entry auxv
      (create h.machine kernelSpace entry (some auxv) (some space)) := by
  have hg := alloc_grows hs.heap.ok hs.tables stackPages
  have hcreate := create_user_eq h.machine kernelSpace entry auxv space
  rw [hcreate] at hr ⊢
  have hmapped : (space.mapAll (h.machine.alloc stackPages).2
      (stackMappings (h.machine.alloc stackPages).1)).refused = false :=
    (pushStack_refused _ _ auxv).symm.trans hr
  have hgranted := not_refused (mapAll_keeps hg.ok hg.tables _) hmapped
  obtain ⟨hsound, page, ht⟩ := hs.alloc (by decide : 0 < stackPages) hgranted
  have hok := (mapAll_keeps hg.ok hg.tables (stackMappings (page * pageSize))).ok
  have hpush := pushStack_eq auxv hok ht.inside
  rw [ht.addr] at hmapped ⊢
  rw [hpush]
  exact stacked_created hv hsound ht rfl hmapped entry

end Stacked

end Task

end UmbraOS
