import UmbraOS.CellStore
import UmbraOS.Vmm

namespace UmbraOS

variable {P : PageSource pageSize}

/-- The constructor; the address that `calloc` returns is not checked. -/
def AddressSpace.create (m : Machine P) : AddressSpace × Machine P :=
  let (page, m) := m.calloc 1
  (⟨m.physToVirt page⟩, m)

namespace Vmm

/-- The first part of `init`: the kernel's space gets the 256 tables of the higher half. -/
def initSpace (m : Machine P) : AddressSpace × Machine P :=
  let (space, m) := AddressSpace.create m
  (space, (List.range' 256 256).foldl (fun m i => (getNextLevel m space.pml4 i true).2) m)

/-- Entry `i` of one top-level table is copied to another. -/
def copyEntry (source target : Nat) (m : Machine P) (i : Nat) : Machine P :=
  { m with mem := m.mem.store64 (target + 8 * i) (entry m source i) }

def newSpace (m : Machine P) (kernelSpace : AddressSpace) : AddressSpace × Machine P :=
  let (space, m) := AddressSpace.create m
  (space, (List.range' 256 256).foldl (copyEntry kernelSpace.pml4 space.pml4) m)

def destroyPml (m : Machine P) (pml start stop : Nat) : Nat → Machine P
  | 0 => m
  | level + 1 =>
    let m := (List.range' start (stop - start)).foldl (fun m i =>
      ifNull (getNextLevel m pml i false) id fun nextPml m => destroyPml m nextPml 0 512 level) m
    m.free (m.virtToPhys pml) 1

end Vmm

/-- The destructor: the higher half belongs to the kernel. -/
def AddressSpace.destroy (space : AddressSpace) (m : Machine P) : Machine P :=
  Vmm.destroyPml m space.pml4 0 256 4

/-- The kernel's address space and the ones that `new_space` made and that were not destroyed.
`kernel_space` is private to the module, so only the others can be destroyed. -/
structure Spaces (P : PageSource pageSize) where
  machine : Machine P
  kernelSpace : AddressSpace
  others : CellStore AddressSpace

namespace Spaces

/-- A space that is alive; `none` stands for the kernel's. -/
def live (s : Spaces P) : Option Nat → Option AddressSpace
  | none => some s.kernelSpace
  | some id => s.others.cell id

inductive Call
  | newSpace
  | map (id : Option Nat) (virtAddr physAddr : Nat) (flags : BitVec 64)
  | virtToPhys (id : Option Nat) (virtAddr : Nat)
  | destroy (id : Nat)

/-- The space that a call is an operation on. -/
def Call.on : Call → Option Nat → Prop
  | .newSpace, _ => False
  | .map id _ _ _, other => other = id
  | .virtToPhys id _, other => other = id
  | .destroy id, other => other = some id

/-- A call; there is no call on a space that is not alive. -/
def step (s : Spaces P) : Call → Spaces P
  | .newSpace =>
    let r := Vmm.newSpace s.machine s.kernelSpace
    { s with machine := r.2, others := s.others.alloc r.1 }
  | .map id virtAddr physAddr flags =>
    match s.live id with
    | none => s
    | some space => { s with machine := space.map s.machine virtAddr physAddr flags }
  | .virtToPhys id virtAddr =>
    match s.live id with
    | none => s
    | some space => { s with machine := (space.virtToPhys s.machine virtAddr).2 }
  | .destroy id =>
    match s.others.cell id with
    | none => s
    | some space => { s with machine := space.destroy s.machine, others := s.others.erase id }

/-- The state when `init` has made the tables of the higher half. -/
def start (m : Machine P) : Spaces P :=
  ⟨(Vmm.initSpace m).2, (Vmm.initSpace m).1, CellStore.empty⟩

end Spaces

end UmbraOS
