import UmbraOS.Heap
import UmbraOS.WordList

namespace UmbraOS

namespace Slab

variable {P : PageSource pageSize}

/-- Blocks are whole words, do not overlap the header and end with the page. -/
theorem sizes_fit : ∀ c ∈ sizes, 8 ≤ c ∧ c ≤ 512 ∧ 8 ∣ c ∧ 0 < maxBlocks c ∧
    8 ∣ headerSize + padding c ∧ 24 ≤ headerSize + padding c ∧
    headerSize + padding c + maxBlocks c * c ≤ 4096 := by
  decide

/-- `x` is the address of a block of the slab. -/
def IsBlock (c slab x : Nat) : Prop := ∃ i, i < maxBlocks c ∧ x = block c slab i

theorem block_inside {c i : Nat} (slab : Nat) (hc : c ∈ sizes) (hi : i < maxBlocks c) :
    slab + 24 ≤ block c slab i ∧ block c slab i + c ≤ slab + 4096 := by
  obtain ⟨_, _, _, _, _, hlow, hend⟩ := sizes_fit c hc
  have hm : (i + 1) * c ≤ maxBlocks c * c := Nat.mul_le_mul_right c hi
  rw [Nat.succ_mul] at hm
  simp only [block]
  omega

theorem block_aligned {c slab : Nat} (hc : c ∈ sizes) (hs : 8 ∣ slab) (i : Nat) :
    8 ∣ block c slab i := by
  obtain ⟨_, _, hdvd, _, hoff, _⟩ := sizes_fit c hc
  exact Nat.dvd_add (Nat.dvd_add hs hoff) (Dvd.dvd.mul_left hdvd i)

theorem block_lt {c i j : Nat} (slab : Nat) (h : i < j) : block c slab i + c ≤ block c slab j := by
  have hm : (i + 1) * c ≤ j * c := Nat.mul_le_mul_right c h
  rw [Nat.succ_mul] at hm
  simp only [block]
  omega

namespace IsBlock

variable {c slab x y : Nat}

theorem inside (h : IsBlock c slab x) (hc : c ∈ sizes) :
    slab + 24 ≤ x ∧ x + c ≤ slab + 4096 := by
  obtain ⟨i, hi, rfl⟩ := h
  exact block_inside slab hc hi

theorem aligned (h : IsBlock c slab x) (hc : c ∈ sizes) (hs : 8 ∣ slab) : 8 ∣ x := by
  obtain ⟨i, _, rfl⟩ := h
  exact block_aligned hc hs i

/-- Different blocks of a slab do not overlap. -/
theorem apart (hx : IsBlock c slab x) (hy : IsBlock c slab y) (h : x ≠ y) :
    x + c ≤ y ∨ y + c ≤ x := by
  obtain ⟨i, _, rfl⟩ := hx
  obtain ⟨j, _, rfl⟩ := hy
  rcases Nat.lt_trichotomy i j with hij | rfl | hji
  · exact Or.inl (block_lt slab hij)
  · exact absurd rfl h
  · exact Or.inr (block_lt slab hji)

theorem mod (h : IsBlock c slab x) (hc : c ∈ sizes) (hs : 4096 ∣ slab) : 24 ≤ x % 4096 := by
  have hin := h.inside hc
  have h8 := (sizes_fit c hc).1
  omega

/-- The page of a block is its slab, and a block does not start a page. -/
theorem page (h : IsBlock c slab x) (hc : c ∈ sizes) (hs : 4096 ∣ slab) :
    alignDown x pageSize = slab ∧ x &&& 0xfff ≠ 0 := by
  have hin := h.inside hc
  have h8 := (sizes_fit c hc).1
  refine ⟨?_, ?_⟩
  · simp only [alignDown, pageSize]
    omega
  · rw [show 0xfff = 2 ^ 12 - 1 from rfl, Nat.and_two_pow_sub_one_eq_mod]
    omega

end IsBlock

theorem linkBlocks_outside {c slab n a : Nat} (mem : Memory)
    (h : ∀ i, i < n → a < block c slab i ∨ block c slab i + 8 ≤ a) :
    linkBlocks c slab mem n a = mem a := by
  induction n with
  | zero => rfl
  | succ n ih =>
    rw [linkBlocks, Memory.store64_outside _ _ (h n (Nat.lt_succ_self n))]
    exact ih fun i hi => h i (Nat.lt_succ_of_lt hi)

theorem linkBlocks_word {c slab n i : Nat} (mem : Memory) (hc : c ∈ sizes) (hi : i < n) :
    (linkBlocks c slab mem n).load64 (block c slab i) =
      BitVec.ofNat 64 (block c slab (i + 1)) := by
  induction n with
  | zero => exact absurd hi (Nat.not_lt_zero i)
  | succ n ih =>
    rw [linkBlocks]
    rcases Nat.lt_succ_iff_lt_or_eq.mp hi with hlt | rfl
    · have hstep := block_lt (c := c) slab hlt
      have h8 := (sizes_fit c hc).1
      rw [Memory.load64_store64_disjoint _ _ (Or.inl (by omega))]
      exact ih hlt
    · rw [Memory.load64_store64]

/-- Every block of a slab, in address order. -/
def blocks (c slab : Nat) : List Nat := (List.range (maxBlocks c)).map (block c slab)

theorem mem_blocks {c slab x : Nat} : x ∈ blocks c slab ↔ IsBlock c slab x := by
  simp only [blocks, List.mem_map, List.mem_range, IsBlock]
  constructor
  · rintro ⟨i, hi, rfl⟩
    exact ⟨i, hi, rfl⟩
  · rintro ⟨i, hi, rfl⟩
    exact ⟨i, hi, rfl⟩

/-- The words `new_slab` writes in a page. -/
structure Fresh (c slab : Nat) (mem : Memory) : Prop where
  size : mem.load64 slab = BitVec.ofNat 64 c
  freeBlock : mem.load64 (slab + freeBlock) = BitVec.ofNat 64 (block c slab 0)
  next : mem.load64 (slab + next) = 0#64
  link : ∀ i, i + 1 < maxBlocks c →
    mem.load64 (block c slab i) = BitVec.ofNat 64 (block c slab (i + 1))
  last : mem.load64 (block c slab (maxBlocks c - 1)) = 0#64

/-- The blocks of a new slab are all free. -/
theorem Fresh.list {c slab : Nat} {mem : Memory} (h : Fresh c slab mem) (hc : c ∈ sizes)
    (hend : slab + 4096 ≤ 2 ^ 64) :
    WordList mem 0 (mem.load64 (slab + Slab.freeBlock)).toNat (blocks c slab) := by
  have hmax := (sizes_fit c hc).2.2.2.1
  have h8 := (sizes_fit c hc).1
  have hword : ∀ i, i < maxBlocks c →
      (BitVec.ofNat 64 (block c slab i)).toNat = block c slab i := by
    intro i hi
    have hin := block_inside slab hc hi
    rw [BitVec.toNat_ofNat, Nat.mod_eq_of_lt (by omega)]
  have hne : ∀ i, i < maxBlocks c → block c slab i ≠ 0 := by
    intro i hi
    have hin := block_inside slab hc hi
    omega
  have hlink : ∀ i, i < maxBlocks c → (mem.load64 (block c slab i + 0)).toNat =
      if i + 1 < maxBlocks c then block c slab (i + 1) else 0 := by
    intro i hi
    rw [Nat.add_zero]
    split
    next hn => rw [h.link i hn, hword (i + 1) hn]
    next hn =>
      rw [show i = maxBlocks c - 1 by omega, h.last]
      rfl
  have hall := WordList.of_links hne hlink
  rw [if_pos hmax] at hall
  rw [h.freeBlock, hword 0 hmax]
  exact hall

/-- The memory `new_slab` leaves when the page is at `slab`. -/
def fresh (c slab : Nat) (mem : Memory) : Memory :=
  (linkBlocks c slab (((mem.store64 slab (BitVec.ofNat 64 c)).store64 (slab + freeBlock)
    (BitVec.ofNat 64 (block c slab 0))).store64 (slab + next) 0#64) (maxBlocks c - 1)).store64
    (block c slab (maxBlocks c - 1)) 0#64

theorem newSlab_eq (c : Nat) (m : Machine P) :
    newSlab c m = ((m.calloc 1).2.physToVirt (m.calloc 1).1, { (m.calloc 1).2 with
      mem := fresh c ((m.calloc 1).2.physToVirt (m.calloc 1).1) (m.calloc 1).2.mem }) := rfl

theorem fresh_outside {c slab x : Nat} (mem : Memory) (hc : c ∈ sizes)
    (h : x < slab ∨ slab + 4096 ≤ x) : fresh c slab mem x = mem x := by
  have hmax := (sizes_fit c hc).2.2.2.1
  have h8 := (sizes_fit c hc).1
  have hlast := block_inside (i := maxBlocks c - 1) slab hc (by omega)
  simp only [fresh, freeBlock, next]
  rw [Memory.store64_outside _ _ (by omega), linkBlocks_outside]
  · rw [Memory.store64_outside _ _ (by omega), Memory.store64_outside _ _ (by omega),
      Memory.store64_outside _ _ (by omega)]
  · intro i hi
    have hin := block_inside (i := i) slab hc (by omega)
    omega

/-- Linking the blocks leaves the header as it was written. -/
theorem fresh_header {c slab w : Nat} (mem : Memory) (hc : c ∈ sizes) (hlow : slab ≤ w)
    (hw : w + 8 ≤ slab + 24) : (fresh c slab mem).load64 w =
      (((mem.store64 slab (BitVec.ofNat 64 c)).store64 (slab + freeBlock)
        (BitVec.ofNat 64 (block c slab 0))).store64 (slab + next) 0#64).load64 w := by
  have hmax := (sizes_fit c hc).2.2.2.1
  refine Memory.load64_congr fun x hx hl => ?_
  have hlast := block_inside (i := maxBlocks c - 1) slab hc (by omega)
  rw [fresh, Memory.store64_outside _ _ (by omega), linkBlocks_outside]
  intro i hi
  have hin := block_inside (i := i) slab hc (by omega)
  omega

theorem fresh_spec (c slab : Nat) (mem : Memory) (hc : c ∈ sizes) :
    Fresh c slab (fresh c slab mem) := by
  have hmax := (sizes_fit c hc).2.2.2.1
  have h8 := (sizes_fit c hc).1
  refine ⟨?_, ?_, ?_, ?_, ?_⟩
  · rw [fresh_header mem hc (by omega) (by omega),
      Memory.load64_store64_disjoint _ _ (by simp [next]),
      Memory.load64_store64_disjoint _ _ (by simp [freeBlock]), Memory.load64_store64]
  · rw [fresh_header mem hc (by omega) (by simp [freeBlock]),
      Memory.load64_store64_disjoint _ _ (by simp [next, freeBlock]), Memory.load64_store64]
  · rw [fresh_header mem hc (by omega) (by simp [next]), Memory.load64_store64]
  · intro i hi
    have hlast := block_lt (c := c) (i := i) (j := maxBlocks c - 1) slab (by omega)
    rw [fresh, Memory.load64_store64_disjoint _ _ (Or.inl (by omega)),
      linkBlocks_word _ hc (by omega)]
  · rw [fresh, Memory.load64_store64]

/-- What `new_slab` does when the allocator does not refuse. -/
structure Made (c : Nat) (m : Machine P) (page : Nat) (m' : Machine P) : Prop where
  ok : m'.Ok
  hhdm : m'.hhdm = m.hhdm
  positive : 0 < page
  inside : page < P.bound
  unused : ¬m.Used page
  used : ∀ i, m'.Used i ↔ m.Used i ∨ i = page
  fresh : Fresh c (m.pageAt page) m'.mem
  frame : ∀ x, x < m.pageAt page ∨ m.pageAt page + 4096 ≤ x → m'.mem x = m.mem x
  refused : m'.refused = m.refused

theorem newSlab_spec {m : Machine P} {c : Nat} (hm : m.Ok) (hc : c ∈ sizes) :
    (newSlab c m).2.refused = true ∨
      ∃ page, (newSlab c m).1 = m.pageAt page ∧ Made c m page (newSlab c m).2 := by
  have hcall := Machine.calloc_spec hm Nat.one_pos
  rw [newSlab_eq]
  generalize m.calloc 1 = r at hcall ⊢
  cases hcall with
  | refused pmm ok used => exact Or.inl rfl
  | run page pmm ok positive inside unused used =>
    refine Or.inr ⟨page, rfl, ?_⟩
    refine ⟨⟨ok, hm.aligned, hm.window, hm.bound⟩, rfl, positive, by omega,
      unused page (le_refl _) (by omega), ?_, fresh_spec c _ _ hc, ?_, rfl⟩
    · intro i
      have hrange : (page ≤ i ∧ i < page + 1) ↔ i = page := by omega
      exact (used i).trans (or_congr_right hrange)
    · intro x hx
      have hframe := fresh_outside (m.mem.fill (m.pageAt page) (1 * pageSize) 0#8) hc hx
      rw [Memory.fill_outside _ _ (by simpa [pageSize] using hx)] at hframe
      exact hframe

end Slab

end UmbraOS
