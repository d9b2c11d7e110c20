import UmbraOS.Elf
import UmbraOS.VfsFile

namespace UmbraOS

variable {P : PageSource pageSize}

namespace Machine

theorem Ok.of_same {m m' : Machine P} (h : m.Ok) (hpmm : m'.pmm = m.pmm)
    (hhdm : m'.hhdm = m.hhdm) : m'.Ok :=
  ⟨hpmm ▸ h.pmm, hhdm ▸ h.aligned, hhdm ▸ h.window, h.bound⟩

theorem alloc_ok {m : Machine P} (h : m.Ok) (pages : Nat) : (m.alloc pages).2.Ok := by
  rw [alloc]
  split
  next => exact h
  next => exact ⟨P.alloc_ok pages m.pmm h.pmm, h.aligned, h.window, h.bound⟩

theorem calloc_ok {m : Machine P} (h : m.Ok) (pages : Nat) : (m.calloc pages).2.Ok := by
  have ha := alloc_ok h pages
  rw [calloc]
  split
  next => exact h
  next =>
    simp only
    split
    next => exact ha.of_same rfl rfl
    next => exact ha

/-- The run of pages that a call of `calloc` returns. -/
theorem calloc_run {m : Machine P} (h : m.Ok) {pages : Nat} (hr : (m.calloc pages).1 ≠ 0) :
    ∃ page, (m.calloc pages).1 = page * pageSize ∧ page + pages ≤ P.bound := by
  have hpos : 0 < pages := by
    rcases Nat.eq_zero_or_pos pages with hz | hpos
    · rw [hz] at hr
      exact absurd rfl hr
    · exact hpos
  have hc := calloc_spec h hpos
  generalize m.calloc pages = r at hc hr ⊢
  cases hc with
  | refused => exact absurd rfl hr
  | run page _ _ _ inside => exact ⟨page, rfl, inside⟩

end Machine

namespace Vmm

theorem getNextLevel_ok {m : Machine P} (h : m.Ok) (topLevel idx : Nat) (allocate : Bool) :
    (getNextLevel m topLevel idx allocate).2.Ok := by
  have hc := Machine.calloc_ok h 1
  rw [getNextLevel]
  split
  next => exact h
  next =>
    split
    next => exact h
    next =>
      simp only
      split
      next => exact hc
      next => exact hc.of_same rfl rfl

theorem virtToPte_ok {m : Machine P} (h : m.Ok) (pml4 virtAddr : Nat) :
    (virtToPte m pml4 virtAddr).2.Ok := by
  have h4 := getNextLevel_ok h pml4 (pml4Offset virtAddr) true
  rw [virtToPte]
  generalize getNextLevel m pml4 (pml4Offset virtAddr) true = r4 at h4 ⊢
  rcases r4 with ⟨_ | pml3, m4⟩
  · exact h4
  have h3 := getNextLevel_ok h4 pml3 (pml3Offset virtAddr) true
  rw [ifNull_some]
  generalize getNextLevel m4 pml3 (pml3Offset virtAddr) true = r3 at h3 ⊢
  rcases r3 with ⟨_ | pml2, m3⟩
  · exact h3
  have h2 := getNextLevel_ok h3 pml2 (pml2Offset virtAddr) true
  rw [ifNull_some]
  generalize getNextLevel m3 pml2 (pml2Offset virtAddr) true = r2 at h2 ⊢
  rcases r2 with ⟨_ | pml1, m2⟩
  · exact h2
  · exact h2

end Vmm

namespace AddressSpace

theorem map_ok {space : AddressSpace} {m : Machine P} (h : m.Ok) (virtAddr physAddr : Nat)
    (flags : BitVec 64) : (space.map m virtAddr physAddr flags).Ok := by
  have hv := Vmm.virtToPte_ok h space.pml4 virtAddr
  rw [map]
  generalize Vmm.virtToPte m space.pml4 virtAddr = r at hv ⊢
  rcases r with ⟨_ | pte, m'⟩
  · exact hv
  · rw [Vmm.ifNull_some]
    split
    next => exact hv
    next => exact Machine.Ok.of_same hv rfl rfl

theorem mapAll_ok {space : AddressSpace} {m : Machine P} (h : m.Ok) (maps : List Mapping) :
    (space.mapAll m maps).Ok := by
  induction maps generalizing m with
  | nil => exact h
  | cons x maps ih => exact ih (map_ok h x.virt x.phys x.flags)

end AddressSpace

namespace Slab

theorem newSlab_ok {m : Machine P} (h : m.Ok) (slabSize : Nat) : (newSlab slabSize m).2.Ok :=
  (Machine.calloc_ok h 1).of_same rfl rfl

theorem growChain_ok {m : Machine P} (h : m.Ok) (slabSize slab : Nat) :
    (growChain slabSize m slab).Ok := by
  rw [growChain]
  split
  next => exact (newSlab_ok h slabSize).of_same rfl rfl
  next => exact h

theorem alloc_ok {m : Machine P} (h : m.Ok) {slabSize fuel slab : Nat} {r : Nat × Machine P}
    (hr : Slab.alloc slabSize fuel m slab = some r) : r.2.Ok := by
  induction fuel generalizing m slab with
  | zero => cases hr
  | succ fuel ih =>
    rw [Slab.alloc] at hr
    split at hr
    next => exact ih (growChain_ok h slabSize slab) hr
    next =>
      obtain rfl := Option.some.inj hr
      exact h.of_same rfl rfl

end Slab

namespace Heap

theorem kmalloc_ok {h : Heap P} (hm : h.machine.Ok) {size : Nat} {r : Nat × Heap P}
    (hr : h.kmalloc size = some r) : r.2.machine.Ok := by
  rw [kmalloc] at hr
  split at hr
  next c _ =>
    obtain ⟨x, hx, rfl⟩ := Option.map_eq_some_iff.mp hr
    exact Slab.alloc_ok hm hx
  next =>
    obtain rfl := Option.some.inj hr
    exact (Machine.alloc_ok hm _).of_same rfl rfl

theorem kcalloc_ok {h : Heap P} (hm : h.machine.Ok) {size : Nat} {r : Nat × Heap P}
    (hr : h.kcalloc size = some r) : r.2.machine.Ok := by
  obtain ⟨x, hx, rfl⟩ := Option.map_eq_some_iff.mp hr
  exact (kmalloc_ok hm hx).of_same rfl rfl

end Heap

namespace Elf

variable {call : ElfCall} {header : Ehdr} {phdr : Phdr} {s t : Loader P}

theorem readInto_heap {s t : Loader P} {fd : Option Nat} {offset length size : Nat} {ret : BitVec 64}
    {bytes : Option Memory} (h : readInto s fd offset length size = .ok (ret, bytes, t)) :
    t.heap = s.heap := by
  obtain ⟨⟨ret', bytes', vfs⟩, -, h⟩ := Except.bind_eq_ok.mp h
  cases bytes' <;> cases h <;> rfl

theorem readAt_heap {fd : Option Nat} {position offset length size : Nat} {ret : BitVec 64}
    {bytes : Option Memory} (h : readAt s fd position offset length size = .ok (ret, bytes, t)) :
    t.heap = s.heap := by
  obtain ⟨vfs, -, h⟩ := Except.bind_eq_ok.mp h
  have hheap : t.heap = ({ s with vfs } : Loader P).heap := readInto_heap h
  exact hheap

theorem fetchPhdr_heap {i : Nat} {ret : BitVec 64}
    (h : fetchPhdr call header i s = .ok (ret, phdr, t)) : t.heap = s.heap := by
  obtain ⟨⟨ret', bytes, u⟩, hu, h⟩ := Except.bind_eq_ok.mp h
  cases h
  exact readAt_heap hu

theorem fetchHeader_heap {ret : BitVec 64} (h : fetchHeader call s = .ok (ret, header, t)) :
    t.heap = s.heap := by
  obtain ⟨⟨ret', bytes, u⟩, hu, h⟩ := Except.bind_eq_ok.mp h
  cases h
  exact readInto_heap hu

theorem pageCount_lt (phdr : Phdr) : pageCount phdr * pageSize < 2 ^ 64 := by
  have hle : alignUp (phdr.memsz + misalign phdr) pageSize / pageSize * pageSize ≤
      alignUp (phdr.memsz + misalign phdr) pageSize := Nat.div_mul_le_self _ _
  have hdown : alignUp (phdr.memsz + misalign phdr) pageSize ≤
      u64 (phdr.memsz + misalign phdr + pageSize - 1) := Nat.div_mul_le_self _ _
  have := u64_lt (phdr.memsz + misalign phdr + pageSize - 1)
  unfold pageCount
  omega

/-- The calls of `map` for a segment. -/
def segmentMappings (call : ElfCall) (phdr : Phdr) (phys : Nat) : List Mapping :=
  AddressSpace.rangeMappings (u64 (phdr.vaddr + call.loadBase)) phys (pageCount phdr)
    (segmentFlags phdr.flags)

theorem mapRange_segment (call : ElfCall) (phdr : Phdr) (m : Machine P) (phys : Nat) :
    call.space.mapRange m (u64 (phdr.vaddr + call.loadBase)) phys (pageCount phdr)
      (segmentFlags phdr.flags) = call.space.mapAll m (segmentMappings call phdr phys) :=
  AddressSpace.mapRange_eq _ _ _ _ _ _ (pageCount_lt phdr)

theorem loadSegment_ok (hm : s.heap.machine.Ok) {go : Bool}
    (h : loadSegment call phdr s = .ok (go, t)) : t.heap.machine.Ok := by
  have hc := Machine.calloc_ok hm (pageCount phdr)
  simp only [loadSegment] at h
  split at h
  next =>
    cases h
    exact hc
  next =>
    rw [mapRange_segment] at h
    obtain ⟨⟨ret, bytes, u⟩, hu, h⟩ := Except.bind_eq_ok.mp h
    have hheap := readAt_heap hu
    have hu' : u.heap.machine.Ok := by
      rw [hheap]
      exact AddressSpace.mapAll_ok hc _
    cases bytes with
    | none =>
      cases h
      exact hu'
    | some bytes =>
      cases h
      exact hu'.of_same rfl rfl

theorem loadInterp_ok (hm : s.heap.machine.Ok) (h : loadInterp call phdr s = .ok (true, t)) :
    t.heap.machine.Ok := by
  simp only [loadInterp] at h
  split at h
  next => cases h
  next path heap hk =>
    have hheap : heap.machine.Ok := Heap.kcalloc_ok hm hk
    split at h
    next => cases h
    next =>
      obtain ⟨⟨ret, bytes, u⟩, hu, h⟩ := Except.bind_eq_ok.mp h
      have hsame := readAt_heap hu
      have hu' : u.heap.machine.Ok := by
        rw [hsame]
        exact hheap
      simp only at h
      split at h
      next => cases h
      next =>
        cases bytes with
        | none => split at h <;> cases h <;> exact hu'
        | some bytes => split at h <;> cases h <;> exact hu'.of_same rfl rfl

theorem loadPhdr_ok (hm : s.heap.machine.Ok) (h : loadPhdr call phdr s = .ok (true, t)) :
    t.heap.machine.Ok := by
  rw [loadPhdr] at h
  split at h
  next => exact loadSegment_ok hm h
  next =>
    split at h
    next =>
      cases h
      exact hm
    next =>
      split at h
      next => exact loadInterp_ok hm h
      next =>
        cases h
        exact hm

theorem turn_ok {i : Nat} (hm : s.heap.machine.Ok) (h : turn call header i s = .ok (true, t)) :
    t.heap.machine.Ok := by
  obtain ⟨⟨ret, phdr, u⟩, hu, h⟩ := Except.bind_eq_ok.mp h
  have hheap := fetchPhdr_heap hu
  have hu' : u.heap.machine.Ok := by
    rw [hheap]
    exact hm
  simp only at h
  split at h
  next => cases h
  next => exact loadPhdr_ok hu' h

/-- The loop comes to the header with the number `k`. -/
structure Comes (call : ElfCall) (s : Loader P) (header : Ehdr) (k : Nat) (u : Loader P) : Prop where
  fetched : ∃ ret s', fetchHeader call s = .ok (ret, header, s') ∧ ret ≠ 0#64 ∧
    Before (turn call header) 0 s' k u
  magic : Magic header
  valid : Valid header
  counted : k < header.phnum

theorem Comes.ok {k : Nat} (hm : s.heap.machine.Ok) (h : Comes call s header k t) :
    t.heap.machine.Ok := by
  obtain ⟨ret, s', hheader, -, hbefore⟩ := h.fetched
  have hs' : s'.heap.machine.Ok := by
    rw [fetchHeader_heap hheader]
    exact hm
  exact Before.invariant (fun _ v => v.heap.machine.Ok) (fun _ _ _ hv hturn => turn_ok hv hturn) hs'
    hbefore

end Elf

/-- The loader before it is called for the descriptor 0. -/
def bootLoader (vfs : Vfs) : Loader (Pmm.source 8 Vmm.bootPmm_limit) :=
  ⟨⟨Vmm.bootMachine, fun _ => 0⟩, vfs, ⟨0, 0, 0, 0⟩, 0, []⟩

def bootCall : ElfCall := ⟨Vmm.bootSpace, some 0, 0, true, fun _ => 0#8, fun _ _ => 0#8⟩

end UmbraOS
