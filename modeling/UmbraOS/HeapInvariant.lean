import Mathlib.Data.List.Nodup
import UmbraOS.SlabBlocks

namespace UmbraOS

namespace Heap

variable {P : PageSource pageSize}

/-- A live pointer, the size it was requested with and the pages the allocator lost to the
request. -/
structure Allocation where
  addr : Nat
  size : Nat
  taken : Nat → Prop

def Allocation.Covers (b : Allocation) (x : Nat) : Prop := b.addr ≤ x ∧ x < b.addr + b.size

/-- What a page the heap holds is for. -/
inductive Owner
  | slab (slabSize : Nat)
  | run (addr : Nat)

/-- The pages, the chains of slabs and the free lists that memory should hold. -/
structure Layout where
  owner : Nat → Option Owner
  chain : Nat → List Nat
  free : Nat → List Nat

def Layout.setFree (L : Layout) (slab : Nat) (xs : List Nat) : Layout :=
  { L with free := fun s => if s = slab then xs else L.free s }

@[simp] theorem Layout.setFree_self (L : Layout) (slab : Nat) (xs : List Nat) :
    (L.setFree slab xs).free slab = xs := if_pos rfl

theorem Layout.setFree_other (L : Layout) {slab s : Nat} (xs : List Nat) (h : s ≠ slab) :
    (L.setFree slab xs).free s = L.free s := if_neg h

/-- The pages of a request that no slab holds, with the header page. -/
def runPages (size : Nat) : Nat := (size + 4095) / 4096 + 1

/-- A slab whose free list is `free`: every block is either on it or live. -/
structure SlabState (mem : Memory) (live : List Allocation) (c slab : Nat)
    (free : List Nat) : Prop where
  size : mem.load64 slab = BitVec.ofNat 64 c
  list : WordList mem 0 (mem.load64 (slab + Slab.freeBlock)).toNat free
  blocks : ∀ x ∈ free, Slab.IsBlock c slab x
  split : ∀ x, Slab.IsBlock c slab x → (x ∈ free ↔ ∀ b ∈ live, b.addr ≠ x)

/-- A live pointer to the pages behind the header page `first`. -/
structure RunState (m : Machine P) (b : Allocation) (first : Nat) : Prop where
  addr : b.addr = m.pageAt (first + 1)
  positive : 0 < first
  inside : first + runPages b.size ≤ P.bound
  header : m.mem.load64 (m.pageAt first) = BitVec.ofNat 64 (runPages b.size)
  taken : ∀ i, b.taken i ↔ first ≤ i ∧ i < first + runPages b.size

/-- `classes` lists the slab sizes whose first slab has been made. -/
structure Inv (classes : List Nat) (h : Heap P) (live : List Allocation) (L : Layout) :
    Prop where
  ok : h.machine.Ok
  sizes : ∀ c ∈ classes, c ∈ Slab.sizes
  absent : ∀ c, c ∉ classes → L.chain c = []
  owned : ∀ i o, L.owner i = some o → h.machine.Used i
  chains : ∀ c ∈ classes, WordList h.machine.mem Slab.next (h.slabs c) (L.chain c)
  nonempty : ∀ c ∈ classes, L.chain c ≠ []
  page : ∀ c ∈ classes, ∀ a ∈ L.chain c,
    ∃ i, a = h.machine.pageAt i ∧ i < P.bound ∧ L.owner i = some (.slab c)
  slab : ∀ c ∈ classes, ∀ a ∈ L.chain c, SlabState h.machine.mem live c a (L.free a)
  small : ∀ b ∈ live, b.size ≤ 512 → ∃ c ∈ classes, ∃ a ∈ L.chain c,
    Slab.IsBlock c a b.addr ∧ b.size ≤ c
  large : ∀ b ∈ live, 512 < b.size → ∃ first, RunState h.machine b first ∧
    ∀ i, first ≤ i → i < first + runPages b.size → L.owner i = some (.run b.addr)
  distinct : (live.map Allocation.addr).Nodup

theorem pageAt_inj {m : Machine P} {i j : Nat} (h : m.pageAt i = m.pageAt j) : i = j := by
  simp only [Machine.pageAt, pageSize] at h
  omega

theorem pageAt_apart (m : Machine P) {i j : Nat} (h : i ≠ j) :
    m.pageAt i + 4096 ≤ m.pageAt j ∨ m.pageAt j + 4096 ≤ m.pageAt i := by
  simp only [Machine.pageAt, pageSize]
  omega

theorem pageAt_dvd {m : Machine P} (hm : m.Ok) (i : Nat) : 4096 ∣ m.pageAt i :=
  Nat.dvd_add (Nat.dvd_mul_left _ _) hm.aligned

theorem pageAt_succ (m : Machine P) (i : Nat) : m.pageAt (i + 1) = m.pageAt i + 4096 := by
  simp only [Machine.pageAt, pageSize]
  omega

/-- Pages below the bound end below `2 ^ 64`. -/
theorem pageAt_end {m : Machine P} (hm : m.Ok) {i : Nat} (h : i < P.bound) :
    m.pageAt i + 4096 ≤ 2 ^ 64 := by
  have hw := hm.window
  simp only [Machine.pageAt, pageSize] at hw ⊢
  omega

theorem runPages_lt {m : Machine P} (hm : m.Ok) {first n : Nat} (h : first + n ≤ P.bound) :
    n < 2 ^ 64 := by
  have hb := hm.bound
  omega

theorem covers_runPages (size x : Nat) (h : x < size) : x / 4096 + 1 < runPages size := by
  simp only [runPages]
  omega

/-- The parts of a slab that its state reads. -/
theorem SlabState.congr {mem mem' : Memory} {live live' : List Allocation} {c a : Nat}
    {free : List Nat} (h : SlabState mem live c a free)
    (hhead : mem'.load64 a = mem.load64 a)
    (hfree : mem'.load64 (a + Slab.freeBlock) = mem.load64 (a + Slab.freeBlock))
    (hblock : ∀ x ∈ free, mem'.load64 x = mem.load64 x)
    (hlive : ∀ x, Slab.IsBlock c a x →
      ((∀ b ∈ live', b.addr ≠ x) ↔ ∀ b ∈ live, b.addr ≠ x)) :
    SlabState mem' live' c a free where
  size := hhead.trans h.size
  list := by
    rw [hfree]
    exact h.list.congr fun x hx => hblock x hx
  blocks := h.blocks
  split x hx := (h.split x hx).trans (hlive x hx).symm

/-- The first free block becomes live. -/
theorem SlabState.take {mem mem' : Memory} {live : List Allocation} {c a x : Nat} {rest : List Nat}
    (h : SlabState mem live c a (x :: rest)) (hhead : mem'.load64 a = mem.load64 a)
    (hfree : mem'.load64 (a + Slab.freeBlock) = mem.load64 x)
    (hblock : ∀ y ∈ rest, mem'.load64 y = mem.load64 y) (size : Nat) (taken : Nat → Prop) :
    SlabState mem' (⟨x, size, taken⟩ :: live) c a rest where
  size := hhead.trans h.size
  list := by
    obtain ⟨_, _, hrest⟩ := h.list
    rw [hfree]
    exact hrest.congr hblock
  blocks y hy := h.blocks y (List.mem_cons_of_mem _ hy)
  split y hy := by
    have hsplit := h.split y hy
    have hnodup := h.list.nodup
    rw [List.nodup_cons] at hnodup
    rw [List.mem_cons] at hsplit
    rw [List.forall_mem_cons, ← hsplit]
    constructor
    · intro hr
      refine ⟨?_, Or.inr hr⟩
      rintro rfl
      exact hnodup.1 hr
    · rintro ⟨hne, heq | hr⟩
      · exact absurd heq.symm hne
      · exact hr

theorem forall_filter_ne {live : List Allocation} {x y : Nat} (hne : y ≠ x) :
    (∀ b ∈ live.filter (fun b => b.addr ≠ x), b.addr ≠ y) ↔ ∀ b ∈ live, b.addr ≠ y := by
  constructor
  · intro hall b hb he
    refine hall b (List.mem_filter.mpr ⟨hb, ?_⟩) he
    exact decide_eq_true (he ▸ hne)
  · intro hall b hb
    exact hall b (List.mem_of_mem_filter hb)

/-- A live block becomes the first free one. -/
theorem SlabState.give {mem mem' : Memory} {live : List Allocation} {b : Allocation} {c a : Nat}
    {free : List Nat} (h : SlabState mem live c a free) (hb : b ∈ live)
    (hx : Slab.IsBlock c a b.addr) (hpos : b.addr ≠ 0) (hlt : b.addr < 2 ^ 64)
    (hhead : mem'.load64 a = mem.load64 a)
    (hfree : mem'.load64 (a + Slab.freeBlock) = BitVec.ofNat 64 b.addr)
    (hlink : mem'.load64 b.addr = mem.load64 (a + Slab.freeBlock))
    (hblock : ∀ y ∈ free, y ≠ b.addr → mem'.load64 y = mem.load64 y) :
    SlabState mem' (live.filter fun b' => b'.addr ≠ b.addr) c a (b.addr :: free) where
  size := hhead.trans h.size
  list := by
    have hnot : ∀ y ∈ free, y ≠ b.addr := by
      rintro y hy rfl
      exact (h.split b.addr hx).mp hy b hb rfl
    rw [hfree, BitVec.toNat_ofNat, Nat.mod_eq_of_lt hlt]
    refine WordList.cons hpos ?_
    rw [Nat.add_zero, hlink]
    exact h.list.congr fun y hy => hblock y hy (hnot y hy)
  blocks := List.forall_mem_cons.mpr ⟨hx, h.blocks⟩
  split y hy := by
    by_cases hne : y = b.addr
    · subst hne
      refine ⟨fun _ b' hb' he => ?_, fun _ => List.mem_cons_self⟩
      have hf := (List.mem_filter.mp hb').2
      exact absurd he (of_decide_eq_true hf)
    · rw [forall_filter_ne hne, ← h.split y hy, List.mem_cons]
      exact ⟨fun hor => hor.resolve_left hne, Or.inr⟩

theorem RunState.congr {m m' : Machine P} {b : Allocation} {first : Nat}
    (h : RunState m b first) (hh : m'.hhdm = m.hhdm)
    (hw : m'.mem.load64 (m.pageAt first) = m.mem.load64 (m.pageAt first)) :
    RunState m' b first := by
  have hp : ∀ i, m'.pageAt i = m.pageAt i := fun i => by rw [Machine.pageAt, hh, Machine.pageAt]
  exact ⟨h.addr.trans (hp _).symm, h.positive, h.inside, by rw [hp, hw, h.header], h.taken⟩

namespace Inv

variable {classes : List Nat} {h : Heap P} {live : List Allocation} {L : Layout}

theorem dvd (hi : Inv classes h live L) {c a : Nat} (hc : c ∈ classes) (ha : a ∈ L.chain c) :
    4096 ∣ a := by
  obtain ⟨i, rfl, _⟩ := hi.page c hc a ha
  exact pageAt_dvd hi.ok i

/-- A slab belongs to one chain. -/
theorem chain_unique (hi : Inv classes h live L) {c c' a : Nat} (hc : c ∈ classes)
    (hc' : c' ∈ classes) (ha : a ∈ L.chain c) (ha' : a ∈ L.chain c') : c = c' := by
  obtain ⟨i, hai, _, hio⟩ := hi.page c hc a ha
  obtain ⟨j, haj, _, hjo⟩ := hi.page c' hc' a ha'
  rw [← pageAt_inj (hai.symm.trans haj), hio] at hjo
  injection hjo with hjo
  injection hjo

/-- Different slabs are different pages. -/
theorem slab_apart (hi : Inv classes h live L) {c c' a a' : Nat} (hc : c ∈ classes)
    (hc' : c' ∈ classes) (ha : a ∈ L.chain c) (ha' : a' ∈ L.chain c') (hne : a ≠ a') :
    a + 4096 ≤ a' ∨ a' + 4096 ≤ a := by
  obtain ⟨i, rfl, _⟩ := hi.page c hc a ha
  obtain ⟨j, rfl, _⟩ := hi.page c' hc' a' ha'
  exact pageAt_apart _ fun hij => hne (by rw [hij])

theorem block_aligned (hi : Inv classes h live L) {c a x : Nat} (hc : c ∈ classes)
    (ha : a ∈ L.chain c) (hx : Slab.IsBlock c a x) : 8 ∣ x :=
  hx.aligned (hi.sizes c hc) (Nat.dvd_trans (by decide) (hi.dvd hc ha))

/-- A slab is as it was if its page keeps the words besides `next`. -/
theorem slab_kept (hi : Inv classes h live L) {c a : Nat} (hc : c ∈ classes) (ha : a ∈ L.chain c)
    {mem : Memory} {live' : List Allocation}
    (hkeep : ∀ w, 8 ∣ w → w % 4096 ≠ 16 → a ≤ w → w + 8 ≤ a + 4096 →
      mem.load64 w = h.machine.mem.load64 w)
    (hlive : ∀ x, Slab.IsBlock c a x →
      ((∀ b ∈ live', b.addr ≠ x) ↔ ∀ b ∈ live, b.addr ≠ x)) :
    SlabState mem live' c a (L.free a) := by
  have hst := hi.slab c hc a ha
  have hda := hi.dvd hc ha
  have h8 := (Slab.sizes_fit c (hi.sizes c hc)).1
  refine hst.congr (hkeep a (by omega) (by omega) (le_refl _) (by omega)) ?_ ?_ hlive
  · simp only [Slab.freeBlock]
    exact hkeep _ (by omega) (by omega) (by omega) (by omega)
  · intro x hx
    have hb := hst.blocks x hx
    have hin := hb.inside (hi.sizes c hc)
    have hmod := hb.mod (hi.sizes c hc) hda
    exact hkeep x (hi.block_aligned hc ha hb) (by omega) (by omega) (by omega)

/-- The pointer of a large allocation is no block of a slab. -/
theorem run_not_block (hi : Inv classes h live L) {c a : Nat} {b : Allocation}
    (hb : b ∈ live) (hl : 512 < b.size) (hc : c ∈ classes) (ha : a ∈ L.chain c) :
    ¬Slab.IsBlock c a b.addr := by
  intro hx
  obtain ⟨first, hr, _⟩ := hi.large b hb hl
  have hpage := (hx.page (hi.sizes c hc) (hi.dvd hc ha)).2
  have hdvd := pageAt_dvd hi.ok (first + 1)
  rw [hr.addr, show 0xfff = 2 ^ 12 - 1 from rfl, Nat.and_two_pow_sub_one_eq_mod] at hpage
  omega

theorem addr_unique (hi : Inv classes h live L) {b b' : Allocation} (hb : b ∈ live)
    (hb' : b' ∈ live) (he : b.addr = b'.addr) : b = b' :=
  List.inj_on_of_nodup_map hi.distinct hb hb' he

end Inv

end Heap

end UmbraOS
