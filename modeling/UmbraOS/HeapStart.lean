import UmbraOS.ElfSafety
import UmbraOS.MmapRanges
import Mathlib.Algebra.Order.BigOperators.Group.List

namespace UmbraOS

variable {P : PageSource pageSize}

/-- The expression for `heap_cur` in `kernel_main`. -/
def initialHeapCur (initAuxv : Auxval) (fileSize : Nat) : BitVec 64 :=
  BitVec.ofNat 64 (initAuxv.atEntry + alignUp fileSize pageSize)

/-- The load address that `kernel_main` gives the dynamic loader. -/
def ldBase : Nat := 0x40000000

/-- What `kernel_main` does with the program: it is loaded, and `fd->node->file_size` is read for
the task. Between the two stands the load of the dynamic loader, with an `auxval` of its own. -/
def bootProgram (call : ElfCall) (s : Loader P) : Except Trap (Bool × UserTask × Loader P) := do
  let (accepted, s) ← Elf.load call s
  let fd ← s.vfs.descriptors.read call.fd
  let node ← s.vfs.nodes.read (some fd.node)
  return (accepted, ⟨call.space, initialHeapCur s.auxv node.fileSize⟩, s)

namespace Mmap

variable {abi : VmFlags}

/-- What the accepted calls of a run add to `heap_cur`. -/
def asked (abi : VmFlags) (calls : List MmapCall) : Nat :=
  ((calls.filter fun call => Accepted abi call).map fun call => call.size.toNat).sum

theorem asked_cons (call : MmapCall) (calls : List MmapCall) : asked abi (call :: calls) =
    (if Accepted abi call then call.size.toNat else 0) + asked abi calls := by
  unfold asked
  rw [List.filter_cons]
  by_cases hacc : Accepted abi call
  · rw [if_pos (decide_eq_true hacc), if_pos hacc, List.map_cons, List.sum_cons]
  · rw [if_neg (fun h => hacc (of_decide_eq_true h)), if_neg hacc, Nat.zero_add]

theorem mem_returned {s : UserTask × Machine P} {calls : List MmapCall}
    {r : BitVec 64 × MmapCall} (h : r ∈ returned abi s calls) : r.2 ∈ calls := by
  induction calls generalizing s with
  | nil => cases h
  | cons call calls ih =>
    rcases List.mem_cons.mp h with rfl | h
    · exact List.mem_cons_self
    · exact List.mem_cons_of_mem _ (ih h)

theorem size_le_asked {calls : List MmapCall} {call : MmapCall} (hc : call ∈ calls)
    (hacc : Accepted abi call) : call.size.toNat ≤ asked abi calls := by
  have hmem : call ∈ calls.filter fun call => Accepted abi call :=
    List.mem_filter.mpr ⟨hc, decide_eq_true hacc⟩
  exact List.le_sum_of_mem (List.mem_map_of_mem hmem)

/-- While the heap does not run past the address space, no call returns a byte below it. -/
theorem returned_above {s : UserTask × Machine P} {calls : List MmapCall}
    (hend : s.1.heapCur.toNat + asked abi calls ≤ 2 ^ 64) {r : BitVec 64 × MmapCall}
    (hr : r ∈ returned abi s calls) (hacc : Accepted abi r.2) {w : Nat} (hw : InRange r w) :
    s.1.heapCur.toNat ≤ w := by
  induction calls generalizing s with
  | nil => cases hr
  | cons call calls ih =>
    rw [asked_cons] at hend
    rw [returned] at hr
    by_cases hcall : Accepted abi call
    · rw [if_pos hcall] at hend
      have hmove : (move abi s call).1.heapCur = s.1.heapCur + call.size := by
        rw [move, sysMmap_accepted abi hcall]
      rcases List.mem_cons.mp hr with rfl | hr
      · obtain ⟨k, -, rfl⟩ := hw
        have hbase : (sysMmap abi s.2 s.1 call).1 = s.1.heapCur := by
          rw [sysMmap_accepted abi hcall]
        simp only [hbase]
        exact Nat.le_add_right _ _
      · -- a heap that ends at the end of the address space leaves only empty ranges
        obtain ⟨k, hk, -⟩ := id hw
        have hpos := size_le_asked (mem_returned hr) hacc
        have hsum : (s.1.heapCur + call.size).toNat = s.1.heapCur.toNat + call.size.toNat := by
          rw [BitVec.toNat_add, Nat.mod_eq_of_lt (by omega)]
        have hrest := ih (s := move abi s call) (by rw [hmove, hsum]; omega) hr
        rw [hmove, hsum] at hrest
        omega
    · rw [if_neg hcall] at hend
      have hmove : move abi s call = s := by rw [move, sysMmap_rejected abi hcall]
      rcases List.mem_cons.mp hr with rfl | hr
      · exact absurd hacc hcall
      · rw [hmove] at hr
        exact ih (by omega) hr

end Mmap

namespace Elf

variable {call : ElfCall} {s t : Loader P} {a : Nat} {node : Node} {abi : VmFlags}

/-- A `PT_LOAD` header that the loader sees. -/
def LoadHeader (call : ElfCall) (node : Node) (phdr : Phdr) : Prop :=
  ∃ i < (headerSeen call node).phnum, phdr = phdrSeen call node (headerSeen call node) i ∧
    phdr.type = ptLoad

/-- The heap of a task is behind the image of its program, and no range that a run of calls gets
without a hint is in the image; only the runs that stay in the address space are meant. -/
structure HeapClear (abi : VmFlags) (P : PageSource pageSize) (call : ElfCall) (node : Node)
    (task : UserTask) : Prop where
  aligned : task.heapCur.toNat % pageSize = 0
  behind : ∀ phdr, LoadHeader call node phdr → phdr.vaddr + phdr.memsz ≤ task.heapCur.toNat
  apart : (∀ phdr, LoadHeader call node phdr → phdr.vaddr + phdr.memsz ≤ ldBase) →
    ∀ (m : Machine P) (calls : List MmapCall),
      task.heapCur.toNat + Mmap.asked abi calls ≤ 2 ^ 64 →
      ∀ r ∈ Mmap.returned abi (task, m) calls, Mmap.Accepted abi r.2 → r.2.hint = 0#64 →
        ∀ w, Mmap.InRange r w → ∀ phdr, LoadHeader call node phdr →
          ¬(phdr.vaddr ≤ w ∧ w < phdr.vaddr + phdr.memsz)

/-- The entry point lies on a page boundary, and no segment ends behind the size of the file, in
pages, counted from there. -/
def FileCovers (call : ElfCall) (node : Node) : Prop :=
  (headerSeen call node).entry % pageSize = 0 ∧ ∀ phdr, LoadHeader call node phdr →
    phdr.vaddr + phdr.memsz ≤ u64 ((headerSeen call node).entry + alignUp node.fileSize pageSize)

/-- What a loaded program leaves for the rest of `kernel_main`. -/
theorem Opened.loaded (ho : Opened call s a node) (h : load call s = .ok (true, t)) :
    Behind t a node ∧ t.auxv.atEntry = u64 ((headerSeen call node).entry + call.loadBase) := by
  obtain ⟨ret, s', hheader, hret, hbehind, -⟩ := fetchHeader_spec ho.fd ho.behind
  obtain ⟨-, -, v, hbefore, rfl⟩ := (load_true hheader hret).mp h
  refine ⟨?_, rfl⟩
  have hv : Behind v a node :=
    Before.invariant (fun _ v => Behind v a node) (fun k v w hv hturn => by
      obtain ⟨_, _, -, -, hends⟩ := turn_spec ho.fd hv (headerSeen call node) k
      exact (hends.result hturn).1) hbehind hbefore
  exact hv

theorem boot_heapCur (ho : Opened call s a node) (hbase : call.loadBase = 0) {task : UserTask}
    (hboot : bootProgram call s = .ok (true, task, t)) : task.heapCur.toNat =
      u64 ((headerSeen call node).entry + alignUp node.fileSize pageSize) := by
  obtain ⟨⟨accepted, u⟩, hload, hboot⟩ := Except.bind_eq_ok.mp hboot
  obtain ⟨d, hd, hboot⟩ := Except.bind_eq_ok.mp hboot
  obtain ⟨n, hn, hboot⟩ := Except.bind_eq_ok.mp hboot
  cases hboot
  obtain ⟨⟨position, d', hd', hn', -⟩, hentry⟩ := ho.loaded hload
  rw [ho.fd, CellStore.read_live hd'] at hd
  cases hd
  rw [CellStore.read_live hn'] at hn
  cases hn
  have hlt : (headerSeen call node).entry < 2 ^ 64 := Memory.loadLe_lt _ 24 8
  simp only [initialHeapCur, hentry, hbase, Nat.add_zero, u64_of_lt hlt, BitVec.toNat_ofNat]
  rfl

theorem alignUp_mod (n : Nat) : alignUp n pageSize % pageSize = 0 := Nat.mul_mod_left _ _

/-- The heap of the program that is loaded at boot is clear of its image exactly if the size of
its file covers the image. -/
theorem boot_heap_iff (abi : VmFlags) (ho : Opened call s a node) (hbase : call.loadBase = 0)
    {task : UserTask} (hboot : bootProgram call s = .ok (true, task, t)) :
    HeapClear abi P call node task ↔ FileCovers call node := by
  have hcur := boot_heapCur ho hbase hboot
  have hpage : task.heapCur.toNat % pageSize = (headerSeen call node).entry % pageSize := by
    have hsize := alignUp_mod node.fileSize
    rw [hcur]
    unfold u64 pageSize at *
    omega
  constructor
  · intro h
    exact ⟨hpage.symm.trans h.aligned, fun phdr hphdr => hcur ▸ h.behind phdr hphdr⟩
  · intro h
    have hbehind : ∀ phdr, LoadHeader call node phdr →
        phdr.vaddr + phdr.memsz ≤ task.heapCur.toNat := fun phdr hphdr => hcur ▸ h.2 phdr hphdr
    refine ⟨hpage.trans h.1, hbehind, fun _ m calls hend r hr hacc _ w hw phdr hphdr hin => ?_⟩
    have habove := Mmap.returned_above (s := (task, m)) hend hr hacc hw
    have hclear := hbehind phdr hphdr
    exact absurd (Nat.lt_of_lt_of_le hin.2 hclear) (Nat.not_lt.mpr habove)

/-- A program whose entry point and segment are at 4 MiB; the segment has one byte in the file and
`256 * pages` more in memory. -/
def program (pages : Byte) : Node :=
  ⟨[], .file, none, none, .block 121 (fun i => (List.lookup i [(0, 0x7f#8), (1, 0x45#8), (2, 0x4c#8),
    (3, 0x46#8), (4, 2#8), (5, 1#8), (6, 1#8), (18, 62#8), (20, 1#8), (26, 0x40#8), (32, 64#8),
    (52, 64#8), (54, 56#8), (56, 1#8), (64, 1#8), (68, 5#8), (72, 120#8), (82, 0x40#8), (96, 1#8),
    (104, 1#8), (105, pages), (120, 0xc3#8)]).getD 0#8), 121, 121, 0⟩

def programLoader (pages : Byte) : Loader (Pmm.source 8 Vmm.bootPmm_limit) :=
  bootLoader { Vfs.new with
    nodes := CellStore.empty.alloc (program pages)
    descriptors := CellStore.empty.alloc ⟨0, .readOnly, 0⟩ }

theorem program_opened (pages : Byte) :
    Opened bootCall (programLoader pages) 0 (program pages) := by
  have hsize : 121 < 2 ^ 64 := by decide
  refine ⟨rfl, ⟨_, rfl, rfl, rfl, ?_, rfl⟩, hsize, rfl, rfl⟩
  exact fun h => by cases h

theorem program_boots (pages : Byte)
    (h : (load bootCall (programLoader pages)).map Prod.fst = .ok true) :
    ∃ task t, bootProgram bootCall (programLoader pages) = .ok (true, task, t) := by
  cases hload : load bootCall (programLoader pages) with
  | error trap =>
    rw [hload] at h
    cases h
  | ok result =>
    obtain ⟨accepted, t⟩ := result
    rw [hload] at h
    obtain rfl : accepted = true := Except.ok.inj h
    obtain ⟨⟨position, d, hd, hn, -⟩, -⟩ := (program_opened pages).loaded hload
    have hfd : t.vfs.descriptors.read bootCall.fd = .ok d := CellStore.read_live hd
    refine ⟨⟨bootCall.space, initialHeapCur t.auxv (program pages).fileSize⟩, t, ?_⟩
    rw [bootProgram, hload, Except.ok_bind]
    simp only [hfd, Except.ok_bind, CellStore.read_live hn]
    rfl

theorem small_program_covered : ∃ task t,
    bootProgram bootCall (programLoader 0#8) = .ok (true, task, t) ∧
      (HeapClear Mmap.linuxFlags (Pmm.source 8 Vmm.bootPmm_limit) bootCall (program 0#8) task ↔
        FileCovers bootCall (program 0#8)) ∧ FileCovers bootCall (program 0#8) := by
  obtain ⟨task, t, hboot⟩ := program_boots 0#8 (by decide +kernel)
  refine ⟨task, t, hboot, boot_heap_iff _ (program_opened 0#8) rfl hboot, by decide +kernel, ?_⟩
  intro phdr hphdr
  obtain ⟨i, hi, rfl, -⟩ := hphdr
  obtain rfl : i = 0 := Nat.lt_one_iff.mp hi
  decide +kernel

/-- A file of 121 bytes puts the heap one page above the entry point, into the zeroed bytes of a
segment of two pages. -/
theorem zeroed_segment_not_covered : ∃ task t,
    bootProgram bootCall (programLoader 0x20#8) = .ok (true, task, t) ∧
      ¬HeapClear Mmap.linuxFlags (Pmm.source 8 Vmm.bootPmm_limit) bootCall (program 0x20#8) task := by
  obtain ⟨task, t, hboot⟩ := program_boots 0x20#8 (by decide +kernel)
  refine ⟨task, t, hboot, fun h => ?_⟩
  have hend := h.behind _ ⟨0, by decide, rfl, by decide⟩
  rw [boot_heapCur (program_opened 0x20#8) rfl hboot] at hend
  revert hend
  decide +kernel

end Elf

end UmbraOS
