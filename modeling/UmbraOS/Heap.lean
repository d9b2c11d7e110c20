import UmbraOS.Machine

namespace UmbraOS

namespace Slab

/-- The instances of `Slab<slab_size>`. -/
def sizes : List Nat := [8, 16, 32, 64, 128, 256, 512]

/-- `sizeof(SlabHeader)`: the words `slab_size`, `free_block` and `next`. -/
def headerSize : Nat := 24

def freeBlock : Nat := 8

def next : Nat := 16

def maxBlocks (slabSize : Nat) : Nat := (pageSize - headerSize) / slabSize

/-- The header is padded to a whole block when a block is larger than it. -/
def padding (slabSize : Nat) : Nat := if slabSize > headerSize then slabSize - headerSize else 0

/-- `&slab->blocks[i]`. -/
def block (slabSize slab i : Nat) : Nat := slab + (headerSize + padding slabSize) + i * slabSize

/-- Memory after `n` rounds of the loop that links each block to the next one. -/
def linkBlocks (slabSize slab : Nat) (mem : Memory) : Nat → Memory
  | 0 => mem
  | n + 1 => (linkBlocks slabSize slab mem n).store64 (block slabSize slab n)
      (BitVec.ofNat 64 (block slabSize slab (n + 1)))

variable {P : PageSource pageSize}

/-- `new_slab<slab_size>`. -/
def newSlab (slabSize : Nat) (m : Machine P) : Nat × Machine P :=
  let (addr, m) := m.calloc 1
  let slab := m.physToVirt addr
  let mem := m.mem.store64 slab (BitVec.ofNat 64 slabSize)
  let mem := mem.store64 (slab + freeBlock) (BitVec.ofNat 64 (block slabSize slab 0))
  let mem := mem.store64 (slab + next) 0#64
  let mem := linkBlocks slabSize slab mem (maxBlocks slabSize - 1)
  (slab, { m with mem := mem.store64 (block slabSize slab (maxBlocks slabSize - 1)) 0#64 })

/-- The first block of a slab that is not full. -/
def takeBlock (m : Machine P) (slab : Nat) : Nat × Machine P :=
  let block := (m.mem.load64 (slab + freeBlock)).toNat
  (block, { m with mem := m.mem.store64 (slab + freeBlock) (m.mem.load64 block) })

/-- A full slab gets a successor unless it already exists. -/
def growChain (slabSize : Nat) (m : Machine P) (slab : Nat) : Machine P :=
  if m.mem.load64 (slab + next) = 0#64 then
    let (new, m) := newSlab slabSize m
    { m with mem := m.mem.store64 (slab + next) (BitVec.ofNat 64 new) }
  else m

/-- `Slab<slab_size>::alloc`, which recurs along the chain; the requested size is not read. -/
def alloc (slabSize : Nat) : Nat → Machine P → Nat → Option (Nat × Machine P)
  | 0, _, _ => none
  | fuel + 1, m, slab =>
    if m.mem.load64 (slab + freeBlock) = 0#64 then
      let m := growChain slabSize m slab
      alloc slabSize fuel m (m.mem.load64 (slab + next)).toNat
    else some (takeBlock m slab)

/-- `Slab<slab_size>::free`. -/
def free (m : Machine P) (slab addr : Nat) : Machine P :=
  let mem := m.mem.store64 addr (m.mem.load64 (slab + freeBlock))
  { m with mem := mem.store64 (slab + freeBlock) (BitVec.ofNat 64 addr) }

end Slab

/-- The heap: the machine and the first slab of each size (`slab_8b` to `slab_512b`). -/
structure Heap (P : PageSource pageSize) where
  machine : Machine P
  slabs : Nat → Nat

namespace Heap

variable {P : PageSource pageSize}

def initSlab (h : Heap P) (slabSize : Nat) : Heap P :=
  let (slab, m) := Slab.newSlab slabSize h.machine
  ⟨m, fun c => if c = slabSize then slab else h.slabs c⟩

def init (m : Machine P) : Heap P := Slab.sizes.foldl initSlab ⟨m, fun _ => 0⟩

/-- The branch `kmalloc` takes: the first slab size that holds the request. -/
def slabSize (size : Nat) : Option Nat := Slab.sizes.find? fun c => size ≤ c

/-- The allocation of a request that no slab holds, with its header in the first page. -/
def kmallocPages (m : Machine P) (size : Nat) : Nat × Machine P :=
  let pages := u64 (alignUp size pageSize / pageSize + 1)
  let (ret, m) := m.alloc pages
  let addr := m.physToVirt ret
  let mem := m.mem.store64 addr (BitVec.ofNat 64 pages)
  let mem := mem.store64 (addr + Slab.freeBlock) 0#64
  (addr + pageSize, { m with mem := mem.store64 (addr + Slab.next) 0#64 })

/-- A chain has no more slabs than there are pages, so this fuel is never used up. -/
def chainFuel (P : PageSource pageSize) : Nat := P.bound + 2

def kmalloc (h : Heap P) (size : Nat) : Option (Nat × Heap P) :=
  match slabSize size with
  | some c =>
    (Slab.alloc c (chainFuel P) h.machine (h.slabs c)).map fun r => (r.1, { h with machine := r.2 })
  | none =>
    let (addr, m) := kmallocPages h.machine size
    some (addr, { h with machine := m })

/-- The heap after `kfree`, and the size it prints as invalid. -/
def kfree (h : Heap P) (addr : Nat) : Heap P × Option Nat :=
  if addr &&& 0xfff = 0 then
    let header := addr - pageSize
    let pages := (h.machine.mem.load64 header).toNat
    ({ h with machine := h.machine.free (h.machine.virtToPhys header) pages }, none)
  else
    let page := alignDown addr pageSize
    let size := (h.machine.mem.load64 page).toNat
    if size ∈ Slab.sizes then ({ h with machine := Slab.free h.machine page addr }, none)
    else (h, some size)

end Heap

end UmbraOS
