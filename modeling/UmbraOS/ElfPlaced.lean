import UmbraOS.ElfImage

namespace UmbraOS

namespace Elf

open Vmm
open Machine (KeepsPage)
open Heap (Allocation Layout)

variable {P : PageSource pageSize} {call : ElfCall} {node : Node} {phdr : Phdr} {s t : Loader P}
  {a root : Nat} {m m' : Machine P} {L L' : Layout} {live : List Allocation}

/-- The frames of a segment lie aside and hold what it puts into its pages. -/
structure Placed (m : Machine P) (root : Nat) (L : Layout) (node : Node) (d : Phdr × Nat) :
    Prop where
  inside : d.2 + pageCount d.1 ≤ P.bound
  aside : ∀ i, d.2 ≤ i → i < d.2 + pageCount d.1 → Aside m root L i
  bytes : ∀ x < pageCount d.1 * pageSize, m.mem (m.pageAt d.2 + x) = image node d.1 x

/-- The byte of a run that keeps its pages. -/
theorem Spares.byte (hs : Spares root m L m' L') {page n x : Nat}
    (ha : ∀ i, page ≤ i → i < page + n → Aside m root L i) (hx : x < n * pageSize) :
    m'.mem (m.pageAt page + x) = m.mem (m.pageAt page + x) := by
  have hi : x / pageSize < n := Nat.div_lt_of_lt_mul (by rwa [Nat.mul_comm] at hx)
  have hkeep := (hs.aside _ (ha _ (Nat.le_add_right _ _) (Nat.add_lt_add_left hi page))).2
  refine hkeep.byte ?_ ?_
  · unfold Machine.pageAt pageSize
    omega
  · unfold Machine.pageAt pageSize
    omega

theorem Placed.spares (hs : Spares root m L m' L') {d : Phdr × Nat}
    (hp : Placed m root L node d) : Placed m' root L' node d := by
  refine ⟨hp.inside, fun i hle hlt => (hs.aside i (hp.aside i hle hlt)).1, fun x hx => ?_⟩
  rw [pageAt_hhdm hs.hhdm, Spares.byte hs hp.aside hx]
  exact hp.bytes x hx

/-- What the read of a segment leaves in memory. -/
def segmentRead (node : Node) (phdr : Phdr) (m : Machine P) (phys : Nat) : Memory :=
  if phdr.offset < node.fileSize then
    m.mem.copy (m.physToVirt (phys + misalign phdr)) phdr.filesz
      (node.fileData.bytesFrom phdr.offset)
  else m.mem

theorem segmentRead_outside {phys x : Nat} (h : x < m.physToVirt (phys + misalign phdr) ∨
    m.physToVirt (phys + misalign phdr) + phdr.filesz ≤ x) :
    segmentRead node phdr m phys x = m.mem x := by
  unfold segmentRead
  split
  next => exact Memory.copy_outside _ _ h
  next => rfl

theorem physToVirt_run (m : Machine P) (page x : Nat) :
    m.physToVirt (page * pageSize + x) = m.pageAt page + x := Nat.add_right_comm _ _ _

/-- Zeroed frames hold what the segment puts into them after its read. -/
theorem segmentRead_image (hstart : phdr.filesz ≠ 0 → phdr.offset < node.fileSize) {page x : Nat}
    (hzero : m.mem (m.pageAt page + x) = 0#8) :
    segmentRead node phdr m (page * pageSize) (m.pageAt page + x) = image node phdr x := by
  have hrun := physToVirt_run m page (misalign phdr)
  unfold image content
  by_cases hlow : x < misalign phdr
  · rw [if_pos hlow, segmentRead_outside (by omega)]
    exact hzero
  · rw [if_neg hlow]
    by_cases hin : x - misalign phdr < phdr.filesz
    · have hx : m.pageAt page + x =
          m.physToVirt (page * pageSize + misalign phdr) + (x - misalign phdr) := by omega
      rw [if_pos hin, segmentRead, if_pos (hstart (by omega)), hx]
      exact Memory.copy_inside _ _ hin
    · rw [if_neg hin, segmentRead_outside (by omega)]
      exact hzero

theorem loadSegment_goes (hfd : call.fd = some a) (hb : Behind s a node)
    (h : loadSegment call phdr s = .ok (true, t)) :
    (s.heap.machine.calloc (pageCount phdr)).1 ≠ 0 ∧ t.heap = ⟨{
      call.space.mapAll (s.heap.machine.calloc (pageCount phdr)).2
        (segmentMappings call phdr (s.heap.machine.calloc (pageCount phdr)).1) with
      mem := segmentRead node phdr (call.space.mapAll (s.heap.machine.calloc (pageCount phdr)).2
        (segmentMappings call phdr (s.heap.machine.calloc (pageCount phdr)).1))
        (s.heap.machine.calloc (pageCount phdr)).1 }, s.heap.slabs⟩ := by
  rw [loadSegment] at h
  generalize s.heap.machine.calloc (pageCount phdr) = r at h ⊢
  obtain ⟨phys, m⟩ := r
  simp only at h ⊢
  split at h
  next => cases h
  next hphys =>
    refine ⟨hphys, ?_⟩
    rw [mapRange_segment, hfd] at h
    generalize call.space.mapAll m (segmentMappings call phdr phys) = m' at h ⊢
    have hmapped : Behind { s with heap := { s.heap with machine := m' } } a node := hb
    obtain ⟨r, hr, hreads⟩ := readAt_reads hmapped phdr.offset (misalign phdr) phdr.filesz
      (pageCount phdr * pageSize)
    rw [hr, Except.ok_bind] at h
    unfold segmentRead
    cases hreads with
    | past v ended _ heap =>
      obtain ⟨-, rfl⟩ := Prod.mk.inj (Except.ok.inj h)
      rw [if_neg (Nat.not_lt_of_le ended)]
      exact heap
    | copied v starts _ heap =>
      obtain ⟨-, rfl⟩ := Prod.mk.inj (Except.ok.inj h)
      rw [if_pos starts]
      simp only [heap]

/-- A segment that is loaded gets frames of its own, which hold its bytes. -/
theorem loadSegment_placed (hs : Sound Slab.sizes s.heap call.space.pml4 live L)
    (hfd : call.fd = some a) (hb : Behind s a node)
    (hfits : phdr.memsz + misalign phdr + 4095 < 2 ^ 64) (hsize : phdr.filesz ≤ phdr.memsz)
    (hstart : phdr.filesz ≠ 0 → phdr.offset < node.fileSize)
    (h : loadSegment call phdr s = .ok (true, t)) (hr : t.heap.machine.refused = false) :
    Sound Slab.sizes t.heap call.space.pml4 live L ∧
      Spares call.space.pml4 s.heap.machine L t.heap.machine L ∧
      ∃ page, Placed t.heap.machine call.space.pml4 L node (phdr, page) ∧
        ∀ w, pte t.heap.machine call.space.pml4 w = entryAfter (pte s.heap.machine call.space.pml4 w)
          (segmentMappings call phdr (page * pageSize)) w := by
  obtain ⟨hc, ht⟩ := loadSegment_goes hfd hb h
  obtain ⟨hzeroed, page, hp⟩ := hs.calloc hc
  rw [hp.addr] at ht
  obtain ⟨hmapped, hspares⟩ := hzeroed.mapAll (segmentMappings call phdr (page * pageSize))
  have hcount := pageCount_eq hfits
  have hmap := mapAll_pte hzeroed.heap.ok hzeroed.tables
    (@segmentMappings_present call phdr (page * pageSize))
  simp only at hspares hmapped hmap
  rw [ht] at hr ⊢
  have hmapped' := hmap hr
  generalize call.space.mapAll (s.heap.machine.calloc (pageCount phdr)).2
    (segmentMappings call phdr (page * pageSize)) = m at hmapped hspares hmapped' hr ⊢
  have hrun : ∀ i, page ≤ i → i < page + pageCount phdr → Aside m call.space.pml4 L i :=
    fun i hle hlt => (hspares.aside i (hp.aside i hle hlt)).1
  have hin : misalign phdr + phdr.filesz ≤ pageCount phdr * pageSize := by
    unfold pageSize
    omega
  have hpages : ∀ i, ¬(page ≤ i ∧ i < page + pageCount phdr) →
      KeepsPage m { m with mem := segmentRead node phdr m (page * pageSize) } i := by
    intro i hout x hx
    refine segmentRead_outside ?_
    rw [physToVirt_run]
    unfold Machine.pageAt pageSize at *
    omega
  obtain ⟨hsound, haside, hpte⟩ := hmapped.fillAside fun i _ hno =>
    hpages i fun hi => hno (hrun i hi.1 hi.2)
  refine ⟨hsound, ?_, page, ⟨hp.inside, fun i hle hlt => haside i (hrun i hle hlt), fun x hx => ?_⟩,
    fun w => ?_⟩
  · have hall := hp.spares.trans hspares
    refine ⟨hall.hhdm, fun i hi => ?_⟩
    obtain ⟨hi', hkeep⟩ := hall.aside i hi
    have hout : ¬(page ≤ i ∧ i < page + pageCount phdr) := fun hin =>
      hp.fresh i hin.1 hin.2 hi.used
    exact ⟨haside i hi', hkeep.trans (hpages i hout) hall.hhdm⟩
  · refine segmentRead_image hstart ?_
    have hkeep := Spares.byte hspares hp.aside hx
    have hzero := hp.zero x hx
    rw [← pageAt_hhdm hp.spares.hhdm, ← hkeep, ← pageAt_hhdm hspares.hhdm] at hzero
    exact hzero
  · rw [hpte w, hmapped' w, hp.entries w]
    rfl

theorem loadInterp_goes (hlen : phdr.filesz + 1 < 2 ^ 64)
    (h : loadInterp call phdr s = .ok (true, t)) :
    ∃ r mem, s.heap.kmalloc (phdr.filesz + 1) = some r ∧
      t.heap = ⟨{ r.2.machine with mem := mem }, r.2.slabs⟩ ∧
      ∀ x, ¬(r.1 ≤ x ∧ x < r.1 + (phdr.filesz + 1)) → mem x = r.2.machine.mem x := by
  simp only [loadInterp, u64_of_lt hlen] at h
  split at h
  next => cases h
  next path heap hk =>
    obtain ⟨r, hr, hheap⟩ := Option.map_eq_some_iff.mp hk
    obtain ⟨rfl, rfl⟩ := Prod.mk.inj hheap
    split at h
    next => cases h
    next =>
      obtain ⟨⟨ret, bytes, u⟩, hu, h⟩ := Except.bind_eq_ok.mp h
      have hsame := readAt_heap hu
      simp only at hsame h
      split at h
      next => cases h
      next =>
        have hcleared : ∀ x, ¬(r.1 ≤ x ∧ x < r.1 + (phdr.filesz + 1)) →
            r.2.machine.mem.fill r.1 (phdr.filesz + 1) 0#8 x = r.2.machine.mem x :=
          fun x hx => if_neg hx
        cases bytes with
        | none =>
          refine ⟨r, _, hr, ?_, hcleared⟩
          split at h <;> cases h <;> exact hsame
        | some bytes =>
          refine ⟨r, (r.2.machine.mem.fill r.1 (phdr.filesz + 1) 0#8).copy r.1 phdr.filesz bytes,
            hr, ?_, fun x hx => ?_⟩
          · split at h <;> cases h <;> simp only [hsame]
          · rw [Memory.copy_outside _ _ (by omega)]
            exact hcleared x hx

/-- The path buffer is the heap's, and loading it leaves the rest of memory alone. -/
theorem loadInterp_spares (hs : Sound Slab.sizes s.heap root live L)
    (hlen : phdr.filesz + 1 + 4095 < 2 ^ 64)
    (h : loadInterp call phdr s = .ok (true, t)) (hr : t.heap.machine.refused = false) :
    ∃ live' L', Sound Slab.sizes t.heap root live' L' ∧
      Spares root s.heap.machine L t.heap.machine L' ∧
      ∀ w, pte t.heap.machine root w = pte s.heap.machine root w := by
  obtain ⟨r, mem, hcall, ht, hmem⟩ := loadInterp_goes (by omega) h
  rw [ht] at hr ⊢
  obtain ⟨r', hcall', hserved⟩ := hs.heap.kmalloc_apart hlen
  rw [hcall] at hcall'
  obtain rfl := Option.some.inj hcall'
  obtain ⟨L', hi, hg⟩ := hserved hr
  obtain ⟨hsound, hspares, hpte⟩ := hs.grown hi hg
  obtain ⟨hwritten, hspares', hpte'⟩ := hsound.writes List.mem_cons_self hmem
  exact ⟨_, L', hwritten, hspares.trans hspares', fun w => (hpte' w).trans (hpte w)⟩

end Elf

end UmbraOS
