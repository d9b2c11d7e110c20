import UmbraOS.Machine

namespace UmbraOS

def ptePresent : BitVec 64 := 1#64

def pteWritable : BitVec 64 := 2#64

def pteUser : BitVec 64 := 4#64

def pteNx : BitVec 64 := 0x8000000000000000#64

def pteGetAddr (value : BitVec 64) : BitVec 64 := value &&& 0x000ffffffffff000#64

/-- `pml4` is the pointer to the top-level table. -/
structure AddressSpace where
  pml4 : Nat

namespace Vmm

variable {P : PageSource pageSize}

/-- Entry `idx` of the table at `topLevel`. -/
def entry (m : Machine P) (topLevel idx : Nat) : BitVec 64 := m.mem.load64 (topLevel + 8 * idx)

/-- The table below an entry; `none` is the null pointer. -/
def getNextLevel (m : Machine P) (topLevel idx : Nat) (allocate : Bool) :
    Option Nat × Machine P :=
  if entry m topLevel idx &&& ptePresent ≠ 0#64 then
    (some (m.physToVirt (pteGetAddr (entry m topLevel idx)).toNat), m)
  else if !allocate then (none, m)
  else
    let (nextLevel, m) := m.calloc 1
    if nextLevel = 0 then (none, m)
    else
      (some (m.physToVirt nextLevel), { m with
        mem := m.mem.store64 (topLevel + 8 * idx)
          (BitVec.ofNat 64 nextLevel ||| ptePresent ||| pteWritable ||| pteUser) })

def pml4Offset (virtAddr : Nat) : Nat := (virtAddr >>> 39) &&& 0x1ff

def pml3Offset (virtAddr : Nat) : Nat := (virtAddr >>> 30) &&& 0x1ff

def pml2Offset (virtAddr : Nat) : Nat := (virtAddr >>> 21) &&& 0x1ff

def pml1Offset (virtAddr : Nat) : Nat := (virtAddr >>> 12) &&& 0x1ff

/-- The check of a returned pointer against null. -/
def ifNull {α : Type} (r : Option Nat × Machine P) (null : Machine P → α)
    (found : Nat → Machine P → α) : α :=
  match r.1 with
  | none => null r.2
  | some t => found t r.2

@[simp] theorem ifNull_none {α : Type} (m : Machine P) (null : Machine P → α)
    (found : Nat → Machine P → α) : ifNull (none, m) null found = null m := rfl

@[simp] theorem ifNull_some {α : Type} (t : Nat) (m : Machine P) (null : Machine P → α)
    (found : Nat → Machine P → α) : ifNull (some t, m) null found = found t m := rfl

/-- The address of the last-level entry for a virtual address. -/
def virtToPte (m : Machine P) (pml4 virtAddr : Nat) : Option Nat × Machine P :=
  ifNull (getNextLevel m pml4 (pml4Offset virtAddr) true) (fun m => (none, m)) fun pml3 m =>
  ifNull (getNextLevel m pml3 (pml3Offset virtAddr) true) (fun m => (none, m)) fun pml2 m =>
  ifNull (getNextLevel m pml2 (pml2Offset virtAddr) true) (fun m => (none, m)) fun pml1 m =>
  (some (pml1 + 8 * pml1Offset virtAddr), m)

end Vmm

namespace AddressSpace

variable {P : PageSource pageSize}

def map (space : AddressSpace) (m : Machine P) (virtAddr physAddr : Nat) (flags : BitVec 64) :
    Machine P :=
  Vmm.ifNull (Vmm.virtToPte m space.pml4 virtAddr) (fun m => m) fun pte m =>
  if m.mem.load64 pte &&& ptePresent ≠ 0#64 then m
  else { m with mem := m.mem.store64 pte (BitVec.ofNat 64 physAddr ||| flags) }

/-- The turns of the loop of `map_range` left to run, from the byte offset `i`. -/
def mapRangeLoop (space : AddressSpace) (virtAddr physAddr : Nat) (flags : BitVec 64) :
    Nat → Nat → Machine P → Machine P
  | 0, _, m => m
  | turns + 1, i, m =>
    mapRangeLoop space virtAddr physAddr flags turns (i + pageSize)
      (space.map m (u64 (virtAddr + i)) (u64 (physAddr + i)) flags)

def mapRange (space : AddressSpace) (m : Machine P) (virtAddr physAddr pages : Nat)
    (flags : BitVec 64) : Machine P :=
  space.mapRangeLoop virtAddr physAddr flags (u64 (pages * pageSize) / pageSize) 0 m

def virtToPhys (space : AddressSpace) (m : Machine P) (virtAddr : Nat) :
    BitVec 64 × Machine P :=
  Vmm.ifNull (Vmm.virtToPte m space.pml4 virtAddr) (fun m => (BitVec.allOnes 64, m)) fun pte m =>
  if m.mem.load64 pte &&& ptePresent = 0#64 then (BitVec.allOnes 64, m)
  else (pteGetAddr (m.mem.load64 pte), m)

end AddressSpace

end UmbraOS
