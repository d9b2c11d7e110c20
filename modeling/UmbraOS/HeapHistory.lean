import UmbraOS.HeapRuns
import UmbraOS.VmmMap

namespace UmbraOS

namespace Heap

variable {P : PageSource pageSize}

theorem Inv.of_mem_iff {classes classes' : List Nat} {h : Heap P} {live : List Allocation}
    {L : Layout} (hi : Inv classes h live L) (hc : ∀ c, c ∈ classes' ↔ c ∈ classes) :
    Inv classes' h live L where
  ok := hi.ok
  sizes c hin := hi.sizes c ((hc c).mp hin)
  absent c hout := hi.absent c fun hin => hout ((hc c).mpr hin)
  owned := hi.owned
  chains c hin := hi.chains c ((hc c).mp hin)
  nonempty c hin := hi.nonempty c ((hc c).mp hin)
  page c hin := hi.page c ((hc c).mp hin)
  slab c hin := hi.slab c ((hc c).mp hin)
  small b hb hs := by
    obtain ⟨c, hin, hrest⟩ := hi.small b hb hs
    exact ⟨c, (hc c).mpr hin, hrest⟩
  large := hi.large
  distinct := hi.distinct

/-- `init` takes pages that were not used, and leaves the rest of memory alone. -/
theorem Inv.init_grown {m : Machine P} (hm : m.Ok) (hr : (init m).machine.refused = false) :
    ∃ L, Inv Slab.sizes (Heap.init m) [] L ∧
      Grown ⟨m, fun _ => 0⟩ Layout.none (Heap.init m) L := by
  obtain ⟨L, hi, hg⟩ := (Inv.start hm).initSlabs (fun _ hc => hc) (by decide)
    (fun _ _ => List.not_mem_nil) hr
  refine ⟨L, hi.of_mem_iff fun c => ?_, hg⟩
  rw [List.append_nil, List.mem_reverse]

theorem Inv.init {m : Machine P} (hm : m.Ok) (hr : (init m).machine.refused = false) :
    ∃ L, Inv Slab.sizes (Heap.init m) [] L := by
  obtain ⟨L, hi, -⟩ := Inv.init_grown hm hr
  exact ⟨L, hi⟩

structure Session (P : PageSource pageSize) where
  heap : Heap P
  live : List Allocation

def Session.start (m : Machine P) : Session P := ⟨init m, []⟩

/-- A call of `kmalloc`, a call of `kfree` on a live pointer, or a client's write to a byte it
owns. -/
inductive Step : Session P → Session P → Prop
  | kmalloc (s : Session P) (size : Nat) (hs : size + 4095 < 2 ^ 64) (r : Nat × Heap P)
      (call : s.heap.kmalloc size = some r) : Step s
        ⟨r.2, ⟨r.1, size, fun i => r.2.machine.Used i ∧ ¬s.heap.machine.Used i⟩ :: s.live⟩
  | kfree (s : Session P) (b : Allocation) (live : b ∈ s.live) :
      Step s ⟨(s.heap.kfree b.addr).1, s.live.filter fun b' => b'.addr ≠ b.addr⟩
  | write (s : Session P) (b : Allocation) (x : Nat) (byte : Byte) (live : b ∈ s.live)
      (covers : b.Covers x) : Step s
        ⟨⟨{ s.heap.machine with mem := s.heap.machine.mem.fill x 1 byte }, s.heap.slabs⟩, s.live⟩

/-- The invariant holds unless a page was refused, and a refusal is not forgotten. -/
theorem Step.keeps {s s' : Session P} (step : Step s s')
    (hi : s.heap.machine.refused = false → ∃ L, Inv Slab.sizes s.heap s.live L)
    (hr : s'.heap.machine.refused = false) : ∃ L, Inv Slab.sizes s'.heap s'.live L := by
  cases step with
  | kmalloc size hs r call =>
    obtain ⟨L, hinv⟩ := hi (granted_before call hr)
    obtain ⟨q, hq, hserved⟩ := hinv.kmalloc hs
    rw [call] at hq
    obtain rfl := Option.some.inj hq
    exact hserved hr
  | kfree b live =>
    rw [kfree_refused] at hr
    obtain ⟨L, hinv⟩ := hi hr
    exact hinv.kfree live
  | write b x byte live covers =>
    obtain ⟨L, hinv⟩ := hi hr
    exact ⟨L, hinv.write byte live covers⟩

/-- A slab that `kmalloc` can reach. -/
def SlabPage (h : Heap P) (c slab : Nat) : Prop :=
  c ∈ Slab.sizes ∧ ∃ slabs, WordList h.machine.mem Slab.next (h.slabs c) slabs ∧ slab ∈ slabs

def FreeList (h : Heap P) (slab : Nat) (free : List Nat) : Prop :=
  WordList h.machine.mem 0 (h.machine.mem.load64 (slab + Slab.freeBlock)).toNat free

/-- Live allocations share no byte and reach into no header. -/
structure Separated (s : Session P) : Prop where
  live : s.live.Pairwise fun b b' => ∀ x, ¬(b.Covers x ∧ b'.Covers x)
  headers : ∀ c slab, SlabPage s.heap c slab → ∀ b ∈ s.live, ∀ x, slab ≤ x →
    x < slab + Slab.headerSize → ¬b.Covers x
  headerPages : ∀ b ∈ s.live, 512 < b.size → ∀ b' ∈ s.live, ∀ x, b.addr - pageSize ≤ x →
    x < b.addr → ¬b'.Covers x

/-- The free list of a slab holds blocks of the slab, none twice, and a block is on it exactly
when it is not live. -/
structure Partitioned (s : Session P) : Prop where
  chains : ∀ c ∈ Slab.sizes, ∃ slabs,
    WordList s.heap.machine.mem Slab.next (s.heap.slabs c) slabs
  free : ∀ c slab, SlabPage s.heap c slab → ∃ free, FreeList s.heap slab free ∧ free.Nodup ∧
    (∀ x ∈ free, Slab.IsBlock c slab x) ∧
    ∀ x, Slab.IsBlock c slab x → (x ∈ free ↔ x ∉ s.live.map Allocation.addr)
  once : (s.live.map Allocation.addr).Nodup
  small : ∀ b ∈ s.live, b.size ≤ 512 → ∃ c slab, SlabPage s.heap c slab ∧
    Slab.IsBlock c slab b.addr ∧ b.size ≤ c

/-- `kfree` of a live pointer gives back the block to its slab, or the pages that were taken
for it to the page allocator, and nothing else. -/
structure Returns (s : Session P) : Prop where
  quiet : ∀ b ∈ s.live, (s.heap.kfree b.addr).2 = none
  block : ∀ b ∈ s.live, b.size ≤ 512 → ∃ c slab, SlabPage s.heap c slab ∧
    Slab.IsBlock c slab b.addr ∧
    (s.heap.kfree b.addr).1.machine.pmm = s.heap.machine.pmm ∧
    ∀ c' slab' free, SlabPage s.heap c' slab' → FreeList s.heap slab' free →
      SlabPage (s.heap.kfree b.addr).1 c' slab' ∧
      FreeList (s.heap.kfree b.addr).1 slab' (if slab' = slab then b.addr :: free else free)
  run : ∀ b ∈ s.live, 512 < b.size → ∃ first,
    b.addr = s.heap.machine.pageAt first + pageSize ∧
    (∀ i, b.taken i ↔ first ≤ i ∧ i < first + runPages b.size) ∧
    (∀ i, (s.heap.kfree b.addr).1.machine.Used i ↔ s.heap.machine.Used i ∧ ¬b.taken i) ∧
    (s.heap.kfree b.addr).1.machine.mem = s.heap.machine.mem ∧
    (s.heap.kfree b.addr).1.slabs = s.heap.slabs

def HeapSound (s : Session P) : Prop :=
  Separated s ∧ Partitioned s ∧ Returns s ∧
    ∀ size, size + 4095 < 2 ^ 64 → ∃ r, s.heap.kmalloc size = some r

section Sound

variable {s : Session P} {L : Layout}

theorem Inv.slabPage {h : Heap P} {live : List Allocation} (hi : Inv Slab.sizes h live L)
    {c slab : Nat} : SlabPage h c slab ↔ c ∈ Slab.sizes ∧ slab ∈ L.chain c := by
  constructor
  · rintro ⟨hc, slabs, hw, hmem⟩
    rw [hw.unique (hi.chains c hc)] at hmem
    exact ⟨hc, hmem⟩
  · rintro ⟨hc, hmem⟩
    exact ⟨hc, L.chain c, hi.chains c hc, hmem⟩

theorem Inv.separated (hi : Inv Slab.sizes s.heap s.live L) : Separated s where
  live := by
    have hne := List.pairwise_map.mp hi.distinct
    refine hne.imp_of_mem fun hb hb' hne x hx => hne ?_
    rw [hi.covers_unique hb hb' hx.1 hx.2]
  headers c slab hp b hb x hlow hhigh hx := by
    obtain ⟨hc, ha⟩ := hi.slabPage.mp hp
    have hout := hi.covers_header hb hx hc ha
    simp only [Slab.headerSize] at hhigh
    omega
  headerPages b hb hl b' hb' x hlow hhigh hx := by
    obtain ⟨first, hr, ho⟩ := hi.large b hb hl
    have hn : 0 < runPages b.size := Nat.succ_pos _
    have hout := hi.covers_headerPage hb' hx hr (ho first (le_refl _) (by omega))
    rw [hr.addr, pageAt_succ] at hlow hhigh
    simp only [pageSize] at hlow
    omega

theorem Inv.partitioned (hi : Inv Slab.sizes s.heap s.live L) : Partitioned s where
  chains c hc := ⟨L.chain c, hi.chains c hc⟩
  free c slab hp := by
    obtain ⟨hc, ha⟩ := hi.slabPage.mp hp
    have hst := hi.slab c hc slab ha
    refine ⟨L.free slab, hst.list, hst.list.nodup, hst.blocks, fun x hx => ?_⟩
    rw [hst.split x hx, List.mem_map]
    constructor
    · rintro hall ⟨b, hb, he⟩
      exact hall b hb he
    · intro hnot b hb he
      exact hnot ⟨b, hb, he⟩
  once := hi.distinct
  small b hb hs := by
    obtain ⟨c, hc, a, ha, hx, hfit⟩ := hi.small b hb hs
    exact ⟨c, a, hi.slabPage.mpr ⟨hc, ha⟩, hx, hfit⟩

theorem Inv.returns (hi : Inv Slab.sizes s.heap s.live L) : Returns s where
  quiet b hb := by
    rcases Nat.lt_or_ge 512 b.size with hl | hs
    · obtain ⟨first, hr, _⟩ := hi.large b hb hl
      rw [hi.kfree_run hr]
    · obtain ⟨c, hc, a, ha, hx, _⟩ := hi.small b hb hs
      rw [hi.kfree_block hc ha hx]
  block b hb hs := by
    obtain ⟨c, hc, a, ha, hx, _⟩ := hi.small b hb hs
    have hafter := hi.give hb hc ha hx
    refine ⟨c, a, hi.slabPage.mpr ⟨hc, ha⟩, hx, ?_⟩
    rw [hi.kfree_block hc ha hx]
    refine ⟨by simp only [Slab.free], fun c' slab' free hp hf => ?_⟩
    obtain ⟨hc', ha'⟩ := hi.slabPage.mp hp
    have hfree : free = L.free slab' := hf.unique (hi.slab c' hc' slab' ha').list
    refine ⟨hafter.slabPage.mpr ⟨hc', ha'⟩, ?_⟩
    have hlist := (hafter.slab c' hc' slab' ha').list
    split
    next he =>
      subst he
      rw [Layout.setFree_self] at hlist
      rw [hfree]
      exact hlist
    next hne =>
      rw [Layout.setFree_other _ _ hne] at hlist
      rw [hfree]
      exact hlist
  run b hb hl := by
    obtain ⟨first, hr, _⟩ := hi.large b hb hl
    refine ⟨first, hr.addr.trans (pageAt_succ _ _), hr.taken, ?_⟩
    rw [hi.kfree_run hr]
    refine ⟨fun i => ?_, rfl, rfl⟩
    rw [hr.taken i]
    exact Machine.free_used hi.ok hr.positive hr.inside i

theorem Inv.sound (hi : Inv Slab.sizes s.heap s.live L) : HeapSound s := by
  refine ⟨hi.separated, hi.partitioned, hi.returns, fun size hs => ?_⟩
  obtain ⟨r, hr, _⟩ := hi.kmalloc hs
  exact ⟨r, hr⟩

end Sound

/-- As long as the page allocator serves every request, the heap keeps its blocks and pages. -/
theorem heap_keeps_blocks {m : Machine P} (hm : m.Ok) {s : Session P}
    (reach : Relation.ReflTransGen Step (Session.start m) s)
    (hr : s.heap.machine.refused = false) : HeapSound s := by
  have hinv : s.heap.machine.refused = false → ∃ L, Inv Slab.sizes s.heap s.live L := by
    clear hr
    induction reach with
    | refl => exact Inv.init hm
    | tail _ step ih => exact step.keeps ih
  obtain ⟨L, hi⟩ := hinv hr
  exact hi.sound

/-- The boot machine after `init` and a request of 600 bytes. -/
def bootHeap : Heap (Pmm.source 8 Vmm.bootPmm_limit) := init Vmm.bootMachine

def bootBlock : Nat × Machine (Pmm.source 8 Vmm.bootPmm_limit) :=
  kmallocPages bootHeap.machine 600

def bootSession : Session (Pmm.source 8 Vmm.bootPmm_limit) :=
  ⟨⟨bootBlock.2, bootHeap.slabs⟩,
    [⟨bootBlock.1, 600, fun i => bootBlock.2.Used i ∧ ¬bootHeap.machine.Used i⟩]⟩

theorem bootBlock_call :
    bootHeap.kmalloc 600 = some (bootBlock.1, ⟨bootBlock.2, bootHeap.slabs⟩) := by
  have hnone : slabSize 600 = none := by decide
  simp only [Heap.kmalloc, hnone, bootBlock]

theorem bootSession_step : Step ⟨bootHeap, []⟩ bootSession :=
  Step.kmalloc ⟨bootHeap, []⟩ 600 (by decide) (bootBlock.1, ⟨bootBlock.2, bootHeap.slabs⟩)
    bootBlock_call

theorem bootSession_calls : (bootSession.heap.kmalloc 100).bind (fun r =>
    (r.2.kmalloc 700).map fun q => (q.2.machine.refused, q.1 == bootBlock.1, r.1 == bootBlock.1)) =
      some (false, false, false) := by decide +kernel

/-- After a write to a small block and the release of the first block, the small and a large block
are live. -/
theorem bootSession_keeps_blocks : ∃ s : Session (Pmm.source 8 Vmm.bootPmm_limit),
    Relation.ReflTransGen Step (Session.start Vmm.bootMachine) s ∧
      s.live.map Allocation.size = [700, 100] ∧ HeapSound s := by
  obtain ⟨small, hsmall, hcalls⟩ := Option.bind_eq_some_iff.mp bootSession_calls
  obtain ⟨large, hlarge, hcalls⟩ := Option.map_eq_some_iff.mp hcalls
  obtain ⟨hrefused, hne⟩ := Prod.mk.inj hcalls
  obtain ⟨hne, hne'⟩ := Prod.mk.inj hne
  have hreach := (Relation.ReflTransGen.single bootSession_step).tail
    (Step.kmalloc _ 100 (by decide) small hsmall)
  have hreach := hreach.tail (Step.kmalloc _ 700 (by decide) large hlarge)
  have hreach := hreach.tail (Step.write _ ⟨small.1, 100, _⟩ (small.1 + 99) 1#8
    (List.mem_cons_of_mem _ List.mem_cons_self) ⟨Nat.le_add_right _ _, Nat.lt_succ_self _⟩)
  have hreach := hreach.tail (Step.kfree _ ⟨bootBlock.1, 600, _⟩
    (List.mem_cons_of_mem _ (List.mem_cons_of_mem _ List.mem_cons_self)))
  refine ⟨_, hreach, ?_, heap_keeps_blocks Vmm.bootMachine_ok hreach ?_⟩
  · simp [ne_of_beq_false hne, ne_of_beq_false hne', bootSession]
  · rw [kfree_refused]
    exact hrefused

end Heap

end UmbraOS
