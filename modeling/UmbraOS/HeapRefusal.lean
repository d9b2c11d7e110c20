import UmbraOS.HeapRequests

namespace UmbraOS

namespace Slab

variable {P : PageSource pageSize}

/-- A block is only returned where the pointer to it was compared with null. -/
theorem alloc_ne_null {c fuel slab : Nat} {m : Machine P} {r : Nat × Machine P}
    (h : alloc c fuel m slab = some r) : r.1 ≠ 0 := by
  induction fuel generalizing m slab with
  | zero => cases h
  | succ fuel ih =>
    rw [alloc] at h
    split at h
    next => exact ih h
    next hroom =>
      obtain rfl := Option.some.inj h
      intro hz
      exact hroom (BitVec.eq_of_toNat_eq hz)

theorem newSlab_null {c : Nat} {m : Machine P} (h : (P.alloc 1 m.pmm).1 = 0) : (newSlab c m).1 = m.hhdm := by
  have halloc : (m.alloc 1).1 = 0 := by
    rw [Machine.alloc_of_pos m Nat.one_pos]
    exact h
  have hcalloc : (m.calloc 1).1 = 0 ∧ (m.calloc 1).2.hhdm = m.hhdm := by
    unfold Machine.calloc
    rw [if_neg Nat.one_ne_zero, Machine.alloc_of_pos m Nat.one_pos]
    simp [h]
  show (m.calloc 1).1 + (m.calloc 1).2.hhdm = m.hhdm
  rw [hcalloc.1, hcalloc.2, Nat.zero_add]

end Slab

namespace Heap

variable {P : PageSource pageSize}

/-- The page allocator does not supply the pages that a request needs: those of a large request, or one for
a new slab, where the slabs of the size are full. -/
def Refuses (h : Heap P) (size : Nat) : Prop :=
  match slabSize size with
  | some c => (∃ slabs, WordList h.machine.mem Slab.next (h.slabs c) slabs ∧
      ∀ a ∈ slabs, h.machine.mem.load64 (a + Slab.freeBlock) = 0#64) ∧ (P.alloc 1 h.machine.pmm).1 = 0
  | none => (P.alloc (u64 (alignUp size pageSize / pageSize + 1)) h.machine.pmm).1 = 0

/-- The caller gets the null pointer, and memory, with the chains and free lists in it, is as it was. -/
def Reports (h : Heap P) (size : Nat) : Prop :=
  ∃ h', h.kmalloc size = some (0, h') ∧ h'.machine.mem = h.machine.mem ∧ h'.slabs = h.slabs

/-- Calls have led to the heap, and no page was refused so far. -/
def Reached (h : Heap P) : Prop := ∃ m live, Machine.Ok m ∧
  Relation.ReflTransGen AnyStep (Session.start m) ⟨h, live⟩ ∧ h.machine.refused = false

/-- The call returns, and then the last slab of a chain leads to physical page 0. -/
def LinksNullPage (h : Heap P) (size : Nat) : Prop := ∃ r c front last,
  h.kmalloc size = some r ∧ slabSize size = some c ∧
  WordList h.machine.mem Slab.next (h.slabs c) (front ++ [last]) ∧
  r.2.machine.mem.load64 (last + Slab.next) = BitVec.ofNat 64 h.machine.hhdm

theorem kmalloc_ne_null {h : Heap P} {size : Nat} {r : Nat × Heap P} (call : h.kmalloc size = some r) :
    r.1 ≠ 0 := by
  unfold kmalloc at call
  split at call
  next c hc =>
    obtain ⟨q, hq, rfl⟩ := Option.map_eq_some_iff.mp call
    exact Slab.alloc_ne_null hq
  next =>
    obtain rfl := Option.some.inj call
    exact Nat.ne_of_gt (Nat.lt_of_lt_of_le (show 0 < pageSize by decide) (Nat.le_add_left _ _))

theorem kmallocPages_null {m : Machine P} {size : Nat}
    (h : (P.alloc (u64 (alignUp size pageSize / pageSize + 1)) m.pmm).1 = 0) :
    (kmallocPages m size).1 = m.hhdm + pageSize ∧ (kmallocPages m size).2.mem.load64 m.hhdm =
      BitVec.ofNat 64 (u64 (alignUp size pageSize / pageSize + 1)) := by
  have halloc : (m.alloc (u64 (alignUp size pageSize / pageSize + 1))).1 = 0 ∧
      (m.alloc (u64 (alignUp size pageSize / pageSize + 1))).2.hhdm = m.hhdm := by
    unfold Machine.alloc
    split
    next => exact ⟨rfl, rfl⟩
    next => exact ⟨h, rfl⟩
  have haddr : (m.alloc (u64 (alignUp size pageSize / pageSize + 1))).2.physToVirt
      (m.alloc (u64 (alignUp size pageSize / pageSize + 1))).1 = m.hhdm := by
    rw [Machine.physToVirt, halloc.1, halloc.2, Nat.zero_add]
  refine ⟨congrArg (· + pageSize) haddr, ?_⟩
  have hheader := runHeader_size (m.alloc (u64 (alignUp size pageSize / pageSize + 1))).2.mem m.hhdm
    (u64 (alignUp size pageSize / pageSize + 1))
  rw [← hheader, ← haddr]
  rfl

/-- For a slab size, the new slab in physical page 0 is put behind the last one of the chain. -/
theorem Inv.links_null_page {h : Heap P} {live : List Allocation} {L : Layout} (hi : Inv Slab.sizes h live L)
    {size : Nat} (hs : size ≤ 512) (href : Refuses h size) : LinksNullPage h size := by
  obtain ⟨c, hc⟩ : ∃ c, slabSize size = some c := by
    cases hslab : slabSize size with
    | none => exact absurd (lt_of_slabSize_eq_none hslab) (Nat.not_lt.mpr hs)
    | some c => exact ⟨c, rfl⟩
  obtain ⟨hmem, -⟩ := le_of_slabSize hc
  unfold Refuses at href
  rw [hc] at href
  obtain ⟨⟨slabs, hchain, hfull⟩, hnone⟩ := href
  have hslabs : slabs = L.chain c := hchain.unique (hi.chains c hmem)
  have hserved := hi.alloc_served hmem
  have hcall : h.kmalloc size = (Slab.alloc c (chainFuel P) h.machine (h.slabs c)).map fun r =>
      (r.1, { h with machine := r.2 }) := by
    unfold Heap.kmalloc
    rw [hc]
  generalize Slab.alloc c (chainFuel P) h.machine (h.slabs c) = result at hserved hcall
  cases hserved with
  | take a mem room => exact absurd (hfull a (hslabs ▸ mem)) room
  | grow front last whole room =>
    have hlast := hi.dvd hmem (whole ▸ List.mem_append_right front List.mem_cons_self)
    obtain ⟨hlink, -, -⟩ := Slab.grown_room last hi.ok hmem (hi.bound_pos hmem) hlast
    have haligned := hi.ok.aligned
    have hkeep := Memory.load64_store64_aligned (Slab.grown c h.machine last).mem
      ((Slab.grown c h.machine last).mem.load64
        ((Slab.grown c h.machine last).mem.load64 ((Slab.newSlab c h.machine).1 + Slab.freeBlock)).toNat)
      (a := (Slab.newSlab c h.machine).1 + Slab.freeBlock) (b := last + Slab.next)
      (by rw [Slab.newSlab_null hnone]; simp only [Slab.freeBlock]; omega)
      (by simp only [Slab.next]; omega)
      (by rw [Slab.newSlab_null hnone]; simp only [Slab.next, Slab.freeBlock]; omega)
    rw [Slab.newSlab_null hnone] at hlink
    refine ⟨_, c, front, last, hcall, hc, ?_, hkeep.trans hlink⟩
    rw [← whole]
    exact hi.chains c hmem

/-- No refusal of the page allocator is reported: `kmalloc` returns another pointer if it returns. It does
return, and has written to physical page 0 for a large request, and linked it to the chain for a small
one. -/
theorem refusal_unreported {h : Heap P} {size : Nat} (href : Refuses h size) : ¬Reports h size ∧
    (512 < size → ∃ r, h.kmalloc size = some r ∧ r.1 = h.machine.hhdm + pageSize ∧
      r.2.machine.mem.load64 h.machine.hhdm =
        BitVec.ofNat 64 (u64 (alignUp size pageSize / pageSize + 1))) ∧
    (size ≤ 512 → Reached h → LinksNullPage h size) := by
  refine ⟨?_, ?_, ?_⟩
  · intro hreports
    obtain ⟨h', hcall, -, -⟩ := hreports
    exact kmalloc_ne_null hcall rfl
  · intro hl
    unfold Refuses at href
    rw [slabSize_eq_none hl] at href
    obtain ⟨haddr, hheader⟩ := kmallocPages_null href
    exact ⟨_, kmalloc_large hl, haddr, hheader⟩
  · intro hs hreached
    obtain ⟨m, live, hm, hreach, hr⟩ := hreached
    obtain ⟨L, hi⟩ := AnyStep.reach hm hreach hr
    exact hi.links_null_page hs href

/-- A request of 65536 pages and a header, on a machine that has 32768 pages. -/
theorem bootHeap_refuses : Refuses bootHeap 268435456 := by
  obtain ⟨L, hi⟩ := AnyStep.reach Vmm.bootMachine_ok (s := ⟨bootHeap, []⟩) .refl (by decide +kernel)
  show ((Pmm.source 8 Vmm.bootPmm_limit).alloc 65537 bootHeap.machine.pmm).1 = 0
  by_contra hne
  obtain ⟨page, -, hinside, -⟩ := (Pmm.source 8 Vmm.bootPmm_limit).alloc_page 65537 _ hi.ok.pmm hne
  have hbound : (Pmm.source 8 Vmm.bootPmm_limit).bound = 32768 := rfl
  omega

theorem bootHeap_unreported : ¬Reports bootHeap 268435456 ∧
    (512 < 268435456 → ∃ r, bootHeap.kmalloc 268435456 = some r ∧
      r.1 = bootHeap.machine.hhdm + pageSize ∧ r.2.machine.mem.load64 bootHeap.machine.hhdm =
        BitVec.ofNat 64 (u64 (alignUp 268435456 pageSize / pageSize + 1))) ∧
    (268435456 ≤ 512 → Reached bootHeap → LinksNullPage bootHeap 268435456) :=
  refusal_unreported bootHeap_refuses

theorem refusal_returns_pointer : ¬∀ (h : Heap (Pmm.source 8 Vmm.bootPmm_limit)) (size : Nat),
    Refuses h size → Reports h size := by
  intro h
  obtain ⟨h', hcall, -, -⟩ := h bootHeap 268435456 bootHeap_refuses
  exact kmalloc_ne_null hcall rfl

end Heap

end UmbraOS
