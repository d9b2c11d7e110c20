import UmbraOS.HeapInvariant

namespace UmbraOS

namespace Heap

variable {P : PageSource pageSize}

/-- The page `i` that holds a byte of a live allocation, by the kind of the allocation. -/
inductive InPage (classes : List Nat) (h : Heap P) (L : Layout) (b : Allocation) (i : Nat) : Prop
  | slab (c : Nat) (hc : c ∈ classes) (owner : L.owner i = some (.slab c))
      (mem : h.machine.pageAt i ∈ L.chain c) (block : Slab.IsBlock c (h.machine.pageAt i) b.addr)
      (fits : b.size ≤ c) : InPage classes h L b i
  | run (first : Nat) (owner : L.owner i = some (.run b.addr)) (state : RunState h.machine b first)
      (after : first < i) : InPage classes h L b i

namespace Inv

variable {classes : List Nat} {h : Heap P} {live : List Allocation} {L : Layout}

theorem inPage (hi : Inv classes h live L) {b : Allocation} {x : Nat} (hb : b ∈ live)
    (hx : b.Covers x) : ∃ i, InPage classes h L b i ∧ h.machine.pageAt i ≤ x ∧
      x < h.machine.pageAt i + 4096 := by
  obtain ⟨hlow, hhigh⟩ := hx
  rcases Nat.lt_or_ge 512 b.size with hl | hs
  · obtain ⟨first, hr, ho⟩ := hi.large b hb hl
    have hcov := covers_runPages b.size (x - b.addr) (by omega)
    have haddr := hr.addr
    refine ⟨first + 1 + (x - b.addr) / 4096, ?_, ?_, ?_⟩
    · exact InPage.run first (ho _ (by omega) (by omega)) hr (by omega)
    · simp only [Machine.pageAt, pageSize] at haddr ⊢
      omega
    · simp only [Machine.pageAt, pageSize] at haddr ⊢
      omega
  · obtain ⟨c, hc, a, ha, hblock, hfit⟩ := hi.small b hb hs
    obtain ⟨i, rfl, _, ho⟩ := hi.page c hc a ha
    have hin := hblock.inside (hi.sizes c hc)
    exact ⟨i, InPage.slab c hc ho ha hblock hfit, by omega, by omega⟩

/-- A live allocation does not reach into the header of a slab. -/
theorem covers_header (hi : Inv classes h live L) {b : Allocation} {x c a : Nat} (hb : b ∈ live)
    (hx : b.Covers x) (hc : c ∈ classes) (ha : a ∈ L.chain c) : x < a ∨ a + 24 ≤ x := by
  obtain ⟨i, hp, hlow, hhigh⟩ := hi.inPage hb hx
  obtain ⟨j, rfl, _, hj⟩ := hi.page c hc a ha
  by_cases hij : i = j
  · subst hij
    cases hp with
    | slab c' hc' owner mem block fits =>
      have hin := block.inside (hi.sizes c' hc')
      exact Or.inr (Nat.le_trans hin.1 hx.1)
    | run first owner state after =>
      rw [owner] at hj
      injection hj with hj
      cases hj
  · have hap := pageAt_apart h.machine hij
    omega

/-- A live allocation does not overlap a free block. -/
theorem covers_free (hi : Inv classes h live L) {b : Allocation} {x c a y : Nat} (hb : b ∈ live)
    (hx : b.Covers x) (hc : c ∈ classes) (ha : a ∈ L.chain c) (hy : y ∈ L.free a) :
    x < y ∨ y + 8 ≤ x := by
  obtain ⟨i, hp, hlow, hhigh⟩ := hi.inPage hb hx
  have hst := hi.slab c hc a ha
  have hyb := hst.blocks y hy
  have hyin := hyb.inside (hi.sizes c hc)
  have h8 := (Slab.sizes_fit c (hi.sizes c hc)).1
  obtain ⟨j, rfl, _, hj⟩ := hi.page c hc a ha
  by_cases hij : i = j
  · subst hij
    cases hp with
    | slab c' hc' owner mem block fits =>
      obtain rfl := hi.chain_unique hc hc' ha mem
      have hne : b.addr ≠ y := (hst.split y hyb).mp hy b hb
      have hap := block.apart hyb hne
      have hlo := hx.1
      have hhi := hx.2
      omega
    | run first owner state after =>
      rw [owner] at hj
      injection hj with hj
      cases hj
  · have hap := pageAt_apart h.machine hij
    omega

/-- A live allocation does not reach into the header page of a large one. -/
theorem covers_headerPage (hi : Inv classes h live L) {b b' : Allocation} {x first : Nat}
    (hb : b ∈ live) (hx : b.Covers x) (hr : RunState h.machine b' first)
    (ho : L.owner first = some (.run b'.addr)) :
    x < h.machine.pageAt first ∨ h.machine.pageAt first + 4096 ≤ x := by
  obtain ⟨i, hp, hlow, hhigh⟩ := hi.inPage hb hx
  by_cases hij : i = first
  · subst hij
    cases hp with
    | slab c' hc' owner mem block fits =>
      rw [owner] at ho
      injection ho with ho
      cases ho
    | run first' owner state after =>
      rw [owner] at ho
      injection ho with ho
      injection ho with ho
      have haddr := state.addr
      rw [ho, hr.addr] at haddr
      have hf := pageAt_inj haddr
      omega
  · have hap := pageAt_apart h.machine hij
    omega

/-- Two live allocations share no byte. -/
theorem covers_unique (hi : Inv classes h live L) {b b' : Allocation} {x : Nat} (hb : b ∈ live)
    (hb' : b' ∈ live) (hx : b.Covers x) (hx' : b'.Covers x) : b = b' := by
  obtain ⟨i, hp, hlow, hhigh⟩ := hi.inPage hb hx
  obtain ⟨j, hp', hlow', hhigh'⟩ := hi.inPage hb' hx'
  have hij : i = j := by
    by_contra hne
    have hap := pageAt_apart h.machine hne
    omega
  subst hij
  refine hi.addr_unique hb hb' ?_
  cases hp with
  | slab c hc owner mem block fits =>
    cases hp' with
    | slab c' hc' owner' mem' block' fits' =>
      obtain rfl := hi.chain_unique hc hc' mem mem'
      by_contra hne
      have hap := block.apart block' hne
      have h1 := hx.1
      have h2 := hx.2
      have h3 := hx'.1
      have h4 := hx'.2
      omega
    | run first owner' state after =>
      rw [owner] at owner'
      injection owner' with he
      cases he
  | run first owner state after =>
    cases hp' with
    | slab c' hc' owner' mem' block' fits' =>
      rw [owner] at owner'
      injection owner' with he
      cases he
    | run first' owner' state' after' =>
      rw [owner] at owner'
      injection owner' with he
      injection he

end Inv

end Heap

end UmbraOS
