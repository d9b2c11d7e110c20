import UmbraOS.VmmRange

namespace UmbraOS

/-- The flags of `sys/mman.h`, which comes from the C library. -/
structure VmFlags where
  protWrite : BitVec 32
  protExec : BitVec 32
  mapAnonymous : BitVec 32
  mapShared : BitVec 32

/-- The fields of a task that `sys_mmap` uses. -/
structure UserTask where
  addressSpace : AddressSpace
  heapCur : BitVec 64

structure MmapCall where
  hint : BitVec 64
  size : BitVec 64
  prot : BitVec 32
  flags : BitVec 32
  fd : BitVec 32
  offset : BitVec 64

namespace Mmap

variable {P : PageSource pageSize} (abi : VmFlags)

/-- The check of the arguments. -/
def Accepted (call : MmapCall) : Prop :=
  ¬(call.fd ≠ -1#32 ∨ call.offset ≠ 0#64 ∨ call.flags &&& abi.mapAnonymous = 0#32 ∨
    call.flags &&& abi.mapShared ≠ 0#32)

instance (call : MmapCall) : Decidable (Accepted abi call) := inferInstanceAs (Decidable (¬_))

/-- An `int` that is combined with a 64-bit flag and stored back. -/
def orFlag (flags : BitVec 32) (flag : BitVec 64) : BitVec 32 :=
  (flags.signExtend 64 ||| flag).truncate 32

/-- The flags that `map_range` gets; bit 63 does not fit into `page_flags`. -/
def pageFlags (prot : BitVec 32) : BitVec 64 :=
  let flags := (ptePresent ||| pteUser).truncate 32
  let flags := if prot &&& abi.protWrite ≠ 0#32 then orFlag flags pteWritable else flags
  let flags := if prot &&& abi.protExec = 0#32 then orFlag flags pteNx else flags
  flags.signExtend 64

def pages (call : MmapCall) : Nat := call.size.toNat / pageSize

/-- `sys_mmap` for the current task: the address returned, the task and the machine. -/
def sysMmap (m : Machine P) (task : UserTask) (call : MmapCall) :
    BitVec 64 × UserTask × Machine P :=
  if ¬Accepted abi call then (0#64, task, m)
  else
    let (addr, m) := m.alloc (pages call)
    let base := task.heapCur
    let task := { task with heapCur := task.heapCur + call.size }
    if call.hint = 0#64 then
      (base, task, task.addressSpace.mapRange m base.toNat addr (pages call)
        (pageFlags abi call.prot))
    else
      (base, task, task.addressSpace.mapRange m call.hint.toNat addr (pages call)
        (pageFlags abi call.prot))

/-- The address at which the pages of a call are mapped. -/
def target (task : UserTask) (call : MmapCall) : BitVec 64 :=
  if call.hint = 0#64 then task.heapCur else call.hint

/-- The mappings of a call. -/
def mappings (task : UserTask) (call : MmapCall) (addr : Nat) : List Mapping :=
  AddressSpace.rangeMappings (target task call).toNat addr (pages call) (pageFlags abi call.prot)

theorem pages_le (call : MmapCall) : pages call * pageSize ≤ call.size.toNat :=
  Nat.div_mul_le_self _ _

theorem sysMmap_rejected {m : Machine P} {task : UserTask} {call : MmapCall}
    (h : ¬Accepted abi call) : sysMmap abi m task call = (0#64, task, m) := by
  rw [sysMmap, if_pos h]

theorem sysMmap_accepted {m : Machine P} {task : UserTask} {call : MmapCall}
    (h : Accepted abi call) : sysMmap abi m task call =
      (task.heapCur, ⟨task.addressSpace, task.heapCur + call.size⟩,
        task.addressSpace.mapAll (m.alloc (pages call)).2
          (mappings abi task call (m.alloc (pages call)).1)) := by
  have hsize : pages call * pageSize < 2 ^ 64 := Nat.lt_of_le_of_lt (pages_le call) call.size.isLt
  have hrange := fun virt => AddressSpace.mapRange_eq task.addressSpace
    (m.alloc (pages call)).2 virt (m.alloc (pages call)).1 (pages call)
    (pageFlags abi call.prot) hsize
  by_cases hh : call.hint = 0#64
  · simp only [sysMmap, if_neg (not_not.mpr h), mappings, target, if_pos hh, hrange]
  · simp only [sysMmap, if_neg (not_not.mpr h), mappings, target, if_neg hh, hrange]

theorem pageFlags_present (prot : BitVec 32) : pageFlags abi prot &&& ptePresent ≠ 0#64 := by
  unfold pageFlags
  simp only
  split <;> split <;> decide

theorem pageFlags_addr (prot : BitVec 32) : pteGetAddr (pageFlags abi prot) = 0#64 := by
  unfold pageFlags
  simp only
  split <;> split <;> decide

end Mmap

end UmbraOS
