import UmbraOS.Heap
import UmbraOS.Loops
import UmbraOS.Mmap
import UmbraOS.Vfs

namespace UmbraOS

/-- The fields of `Elf64_Ehdr` that the loader reads. The layout of `elf.h` comes from the C
library. -/
structure Ehdr where
  ident : Nat → Byte
  machine : Nat
  version : Nat
  entry : Nat
  phoff : Nat
  ehsize : Nat
  phentsize : Nat
  phnum : Nat

/-- The fields of `Elf64_Phdr` that the loader reads. -/
structure Phdr where
  type : Nat
  flags : BitVec 32
  offset : Nat
  vaddr : Nat
  filesz : Nat
  memsz : Nat

def Ehdr.size : Nat := 64

def Ehdr.ofBytes (b : Memory) : Ehdr :=
  ⟨b, b.loadLe 18 2, b.loadLe 20 4, b.loadLe 24 8, b.loadLe 32 8, b.loadLe 52 2, b.loadLe 54 2,
    b.loadLe 56 2⟩

def Phdr.size : Nat := 56

def Phdr.ofBytes (b : Memory) : Phdr :=
  ⟨b.loadLe 0 4, BitVec.ofNat 32 (b.loadLe 4 4), b.loadLe 8 8, b.loadLe 16 8, b.loadLe 32 8,
    b.loadLe 40 8⟩

structure Auxval where
  atEntry : Nat
  atPhdr : Nat
  atPhent : Nat
  atPhnum : Nat

namespace Heap

variable {P : PageSource pageSize}

def kcalloc (h : Heap P) (size : Nat) : Option (Nat × Heap P) :=
  (h.kmalloc size).map fun r => (r.1, { r.2 with machine := { r.2.machine with
    mem := r.2.machine.mem.fill r.1 size 0#8 } })

/-- The size of the block that `kmalloc` returns if it gets its pages. -/
def blockSize (size : Nat) : Nat :=
  match slabSize size with
  | some c => c
  | none => (u64 (alignUp size pageSize / pageSize + 1) - 1) * pageSize

/-- The bytes that belong to the block; none if a page was refused. -/
def granted (h : Heap P) (size : Nat) : Nat :=
  match kmalloc { h with machine := { h.machine with refused := false } } size with
  | none => 0
  | some r => if r.2.machine.refused then 0 else blockSize size

end Heap

/-- What `Elf::load` works on. `copies` is not in the source: it records the bytes written to
the header buffers, the pages of a segment and the path buffer, with the size of each. -/
structure Loader (P : PageSource pageSize) where
  heap : Heap P
  vfs : Vfs
  auxv : Auxval
  ldPath : Nat
  copies : List Access

/-- The arguments of `Elf::load`, and what the stack holds where the headers are put. -/
structure ElfCall where
  space : AddressSpace
  fd : Option Nat
  loadBase : Nat
  wantsPath : Bool
  headerJunk : Memory
  phdrJunk : Nat → Memory

namespace Elf

variable {P : PageSource pageSize}

def ptLoad : Nat := 1

def ptInterp : Nat := 3

def ptPhdr : Nat := 6

def pfX : BitVec 32 := 1#32

def pfW : BitVec 32 := 2#32

/-- The comparison with `ELFMAG`. -/
def Magic (header : Ehdr) : Prop :=
  header.ident 0 = 0x7f#8 ∧ header.ident 1 = 0x45#8 ∧ header.ident 2 = 0x4c#8 ∧
    header.ident 3 = 0x46#8

instance (header : Ehdr) : Decidable (Magic header) := inferInstanceAs (Decidable (_ ∧ _))

/-- `validate`: `ELFCLASS64`, `ELFDATA2LSB`, `ELFOSABI_SYSV`, `EV_CURRENT` and `EM_X86_64`. -/
def Valid (header : Ehdr) : Prop :=
  header.ident 4 = 2#8 ∧ header.ident 5 = 1#8 ∧ header.ident 7 = 0#8 ∧ header.ident 6 = 1#8 ∧
    header.machine = 62 ∧ header.version = 1 ∧ header.ehsize = Ehdr.size

instance (header : Ehdr) : Decidable (Valid header) := inferInstanceAs (Decidable (_ ∧ _))

/-- `Vfs::read` to a place in a buffer of `size` bytes. -/
def readInto (s : Loader P) (fd : Option Nat) (offset length size : Nat) :
    Except Trap (BitVec 64 × Option Memory × Loader P) := do
  let (ret, bytes, vfs) ← s.vfs.read fd length
  match bytes with
  | none => return (ret, none, { s with vfs })
  | some bytes =>
    return (ret, some bytes, { s with vfs, copies := ⟨offset, length, size⟩ :: s.copies })

/-- `Vfs::seek` and `Vfs::read`. -/
def readAt (s : Loader P) (fd : Option Nat) (position offset length size : Nat) :
    Except Trap (BitVec 64 × Option Memory × Loader P) := do
  let vfs ← s.vfs.seek fd position .set
  readInto { s with vfs } fd offset length size

/-- The flags of a segment for `map_range`; they are collected in an `int`. -/
def segmentFlags (flags : BitVec 32) : BitVec 64 :=
  let prot := (ptePresent ||| pteUser).truncate 32
  let prot := if flags &&& pfW ≠ 0#32 then Mmap.orFlag prot pteWritable else prot
  let prot := if flags &&& pfX = 0#32 then Mmap.orFlag prot pteNx else prot
  prot.signExtend 64

def misalign (phdr : Phdr) : Nat := phdr.vaddr &&& (pageSize - 1)

def pageCount (phdr : Phdr) : Nat := alignUp (phdr.memsz + misalign phdr) pageSize / pageSize

/-- The `PT_LOAD` case of the loop. -/
def loadSegment (call : ElfCall) (phdr : Phdr) (s : Loader P) : Except Trap (Bool × Loader P) := do
  let (phys, m) := s.heap.machine.calloc (pageCount phdr)
  if phys = 0 then return (false, { s with heap := { s.heap with machine := m } })
  else
    let m := call.space.mapRange m (u64 (phdr.vaddr + call.loadBase)) phys (pageCount phdr)
      (segmentFlags phdr.flags)
    let s := { s with heap := { s.heap with machine := m } }
    let (ret, bytes, s) ← readAt s call.fd phdr.offset (misalign phdr) phdr.filesz
      (pageCount phdr * pageSize)
    match bytes with
    | none => return (ret ≠ 0#64, s)
    | some bytes =>
      let m := s.heap.machine
      let m := { m with
        mem := m.mem.copy (m.physToVirt (phys + misalign phdr)) phdr.filesz bytes }
      return (ret ≠ 0#64, { s with heap := { s.heap with machine := m } })

/-- The `PT_INTERP` case of the loop. -/
def loadInterp (call : ElfCall) (phdr : Phdr) (s : Loader P) : Except Trap (Bool × Loader P) :=
  let size := u64 (phdr.filesz + 1)
  let granted := s.heap.granted size
  match s.heap.kcalloc size with
  | none => .error .timeout
  | some (path, heap) => do
    let s := { s with heap, copies := ⟨0, size, granted⟩ :: s.copies }
    if path = 0 then return (false, s)
    else
      let (ret, bytes, s) ← readAt s call.fd phdr.offset 0 phdr.filesz granted
      let s := match bytes with
        | none => s
        | some bytes =>
          let m := s.heap.machine
          { s with heap := { s.heap with
            machine := { m with mem := m.mem.copy path phdr.filesz bytes } } }
      if ret = 0#64 then return (false, { s with heap := (s.heap.kfree path).1 })
      else if call.wantsPath then return (true, { s with ldPath := path })
      else return (true, s)

/-- The `switch` of the loop. -/
def loadPhdr (call : ElfCall) (phdr : Phdr) (s : Loader P) : Except Trap (Bool × Loader P) :=
  if phdr.type = ptLoad then loadSegment call phdr s
  else if phdr.type = ptPhdr then
    .ok (true, { s with auxv := { s.auxv with atPhdr := u64 (phdr.vaddr + call.loadBase) } })
  else if phdr.type = ptInterp then loadInterp call phdr s
  else .ok (true, s)

/-- The program header of a turn of the loop; the buffer keeps what it held where nothing is
read. -/
def fetchPhdr (call : ElfCall) (header : Ehdr) (i : Nat) (s : Loader P) :
    Except Trap (BitVec 64 × Phdr × Loader P) := do
  let (ret, bytes, s) ← readAt s call.fd (u64 (header.phoff + i * header.phentsize)) 0 Phdr.size
    Phdr.size
  return (ret, Phdr.ofBytes (bytes.getD (call.phdrJunk i)), s)

def turn (call : ElfCall) (header : Ehdr) (i : Nat) (s : Loader P) :
    Except Trap (Bool × Loader P) := do
  let (ret, phdr, s) ← fetchPhdr call header i s
  if ret = 0#64 then return (false, s) else loadPhdr call phdr s

def fetchHeader (call : ElfCall) (s : Loader P) : Except Trap (BitVec 64 × Ehdr × Loader P) := do
  let (ret, bytes, s) ← readInto s call.fd 0 Ehdr.size Ehdr.size
  return (ret, Ehdr.ofBytes (bytes.getD call.headerJunk), s)

def load (call : ElfCall) (s : Loader P) : Except Trap (Bool × Loader P) := do
  let (ret, header, s) ← fetchHeader call s
  if ret = 0#64 ∨ ¬Magic header then return (false, s)
  else if ¬Valid header then return (false, s)
  else
    let (go, s) ← loopTurns (turn call header) header.phnum 0 s
    if go then
      return (true, { s with auxv := { s.auxv with
        atEntry := u64 (header.entry + call.loadBase)
        atPhent := header.phentsize
        atPhnum := header.phnum } })
    else return (false, s)

end Elf

end UmbraOS
