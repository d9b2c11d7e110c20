import UmbraOS.HeapSeparation

namespace UmbraOS

namespace Heap

variable {P : PageSource pageSize}

namespace Inv

variable {classes : List Nat} {h : Heap P} {live : List Allocation} {L : Layout}

/-- A step at one slab that writes only into its page, and not to `next` words. -/
theorem editSlab (hi : Inv classes h live L) {c a : Nat} (hc : c ∈ classes) (ha : a ∈ L.chain c)
    {mem : Memory} {live' : List Allocation} {free : List Nat}
    (hlinks : ∀ w, 8 ∣ w → w % 4096 = 16 → mem.load64 w = h.machine.mem.load64 w)
    (houtside : ∀ w, 8 ∣ w → w + 8 ≤ a ∨ a + 4096 ≤ w → mem.load64 w = h.machine.mem.load64 w)
    (hslab : SlabState mem live' c a free)
    (hlive : ∀ x, x < a ∨ a + 4096 ≤ x → ((∀ b ∈ live', b.addr ≠ x) ↔ ∀ b ∈ live, b.addr ≠ x))
    (hold : ∀ b ∈ live', b ∈ live ∨ Slab.IsBlock c a b.addr ∧ b.size ≤ c)
    (hdistinct : (live'.map Allocation.addr).Nodup) :
    Inv classes ⟨{ h.machine with mem }, h.slabs⟩ live' (L.setFree a free) := by
  refine ⟨⟨hi.ok.pmm, hi.ok.aligned, hi.ok.window, hi.ok.bound⟩, hi.sizes, hi.absent, hi.owned,
    ?_, hi.nonempty, hi.page, ?_, ?_, ?_, hdistinct⟩
  · intro c' hc'
    refine (hi.chains c' hc').congr fun y hy => ?_
    have hdy := hi.dvd hc' hy
    refine hlinks _ ?_ ?_ <;> simp only [Slab.next] <;> omega
  · intro c' hc' a' ha'
    by_cases he : a' = a
    · subst he
      obtain rfl := hi.chain_unique hc hc' ha ha'
      rw [Layout.setFree_self]
      exact hslab
    · rw [Layout.setFree_other _ _ he]
      have hapart := hi.slab_apart hc hc' ha ha' (Ne.symm he)
      refine hi.slab_kept hc' ha' (fun w hw _ hlow hhigh => houtside w hw (by omega)) ?_
      intro y hy
      have hin := hy.inside (hi.sizes c' hc')
      have h8 := (Slab.sizes_fit c' (hi.sizes c' hc')).1
      exact hlive y (by omega)
  · intro b hb hsmall
    rcases hold b hb with hb | ⟨hx, hs⟩
    · exact hi.small b hb hsmall
    · exact ⟨c, hc, a, ha, hx, hs⟩
  · intro b hb hlarge
    rcases hold b hb with hb | ⟨-, hs⟩
    · obtain ⟨first, hr, ho⟩ := hi.large b hb hlarge
      have hdf := pageAt_dvd hi.ok first
      obtain ⟨i, rfl, -, hio⟩ := hi.page c hc a ha
      have hne : first ≠ i := by
        rintro rfl
        have hn : 0 < runPages b.size := Nat.succ_pos _
        cases hio.symm.trans (ho first (le_refl _) (by omega))
      have hap := pageAt_apart h.machine hne
      exact ⟨first, hr.congr rfl (houtside _ (by omega) (by omega)), ho⟩
    · have h512 := (Slab.sizes_fit c (hi.sizes c hc)).2.1
      exact absurd (Nat.lt_of_lt_of_le hlarge (Nat.le_trans hs h512)) (Nat.lt_irrefl _)

/-- Taking the first free block of a slab makes it live. -/
theorem take (hi : Inv classes h live L) {c a size : Nat} (hc : c ∈ classes)
    (ha : a ∈ L.chain c) (hfull : h.machine.mem.load64 (a + Slab.freeBlock) ≠ 0#64)
    (hs : size ≤ c) (taken : Nat → Prop) :
    ∃ rest, L.free a = (Slab.takeBlock h.machine a).1 :: rest ∧
      Inv classes ⟨(Slab.takeBlock h.machine a).2, h.slabs⟩
        (⟨(Slab.takeBlock h.machine a).1, size, taken⟩ :: live)
        (L.setFree a rest) := by
  have hst := hi.slab c hc a ha
  have hdvd := hi.dvd hc ha
  have hp : (h.machine.mem.load64 (a + Slab.freeBlock)).toNat ≠ 0 := by
    intro hz
    exact hfull (BitVec.eq_of_toNat_eq hz)
  obtain ⟨rest, hfree, _⟩ := hst.list.eq_cons hp
  simp only [Slab.takeBlock]
  generalize (h.machine.mem.load64 (a + Slab.freeBlock)).toNat = x at hfree hp ⊢
  rw [hfree] at hst
  have hxin : x ∈ x :: rest := List.mem_cons_self
  have hxblock := hst.blocks x hxin
  have hinx := hxblock.inside (hi.sizes c hc)
  have h8 := (Slab.sizes_fit c (hi.sizes c hc)).1
  have hword : ∀ w, 8 ∣ w → w ≠ a + Slab.freeBlock →
      (h.machine.mem.store64 (a + Slab.freeBlock) (h.machine.mem.load64 x)).load64 w =
        h.machine.mem.load64 w := by
    intro w hw hne
    exact Memory.load64_store64_aligned _ _ (by simp only [Slab.freeBlock]; omega) hw hne
  simp only [Slab.freeBlock] at hword
  refine ⟨rest, hfree, hi.editSlab hc ha (fun w hw hmod => hword w hw (by omega))
    (fun w hw hout => hword w hw (by omega)) ?_ ?_ ?_ ?_⟩
  · refine hst.take (hword a (by omega) (by omega)) (Memory.load64_store64 _ _ _) ?_ size taken
    intro y hy
    have hblock := hst.blocks y (List.mem_cons_of_mem _ hy)
    have hmod := hblock.mod (hi.sizes c hc) hdvd
    exact hword y (hi.block_aligned hc ha hblock) (by omega)
  · intro y hy
    have hne : x ≠ y := by omega
    rw [List.forall_mem_cons]
    exact ⟨fun hall => hall.2, fun hall => ⟨hne, hall⟩⟩
  · intro b hb
    rcases List.mem_cons.mp hb with rfl | hb
    · exact Or.inr ⟨hxblock, hs⟩
    · exact Or.inl hb
  · have hnew := (hst.split x hxblock).mp hxin
    rw [List.map_cons, List.nodup_cons]
    refine ⟨?_, hi.distinct⟩
    intro hm
    obtain ⟨b, hb, he⟩ := List.mem_map.mp hm
    exact hnew b hb he

/-- Freeing a block puts it back on the free list of its slab. -/
theorem give (hi : Inv classes h live L) {b : Allocation} {c a : Nat} (hb : b ∈ live)
    (hc : c ∈ classes) (ha : a ∈ L.chain c) (hx : Slab.IsBlock c a b.addr) :
    Inv classes ⟨Slab.free h.machine a b.addr, h.slabs⟩
      (live.filter fun b' => b'.addr ≠ b.addr) (L.setFree a (b.addr :: L.free a)) := by
  have hst := hi.slab c hc a ha
  have hdvd := hi.dvd hc ha
  have hxin := hx.inside (hi.sizes c hc)
  have hxdvd := hi.block_aligned hc ha hx
  have hxmod := hx.mod (hi.sizes c hc) hdvd
  have h8 := (Slab.sizes_fit c (hi.sizes c hc)).1
  obtain ⟨i, hai, hbound, _⟩ := hi.page c hc a ha
  have hend := pageAt_end hi.ok hbound
  simp only [Slab.free]
  generalize hm : (h.machine.mem.store64 b.addr
    (h.machine.mem.load64 (a + Slab.freeBlock))).store64 (a + Slab.freeBlock)
    (BitVec.ofNat 64 b.addr) = mem
  have hword : ∀ w, 8 ∣ w → w ≠ b.addr → w ≠ a + Slab.freeBlock →
      mem.load64 w = h.machine.mem.load64 w := by
    intro w hw hne hne'
    rw [← hm, Memory.load64_store64_aligned _ _ (by simp only [Slab.freeBlock]; omega) hw hne',
      Memory.load64_store64_aligned _ _ hxdvd hw hne]
  have hhead : mem.load64 (a + Slab.freeBlock) = BitVec.ofNat 64 b.addr := by
    rw [← hm, Memory.load64_store64]
  have hlink : mem.load64 b.addr = h.machine.mem.load64 (a + Slab.freeBlock) := by
    rw [← hm, Memory.load64_store64_disjoint _ _ (by simp only [Slab.freeBlock]; omega),
      Memory.load64_store64]
  simp only [Slab.freeBlock] at hword
  refine hi.editSlab hc ha (fun w hw hmod => hword w hw (by omega) (by omega))
    (fun w hw hout => hword w hw (by omega) (by omega)) ?_ ?_ ?_ ?_
  · refine hst.give hb hx (by omega) (by omega) ?_ hhead hlink ?_
    · exact hword a (by omega) (by omega) (by omega)
    · intro y hy hne
      have hmod := (hst.blocks y hy).mod (hi.sizes c hc) hdvd
      exact hword y (hi.block_aligned hc ha (hst.blocks y hy)) hne (by omega)
  · exact fun y hy => forall_filter_ne (by omega)
  · exact fun b' hb' => Or.inl (List.mem_of_mem_filter hb')
  · exact hi.distinct.sublist (List.filter_sublist.map _)

/-- Freeing a large allocation gives back its run. -/
theorem giveRun (hi : Inv classes h live L) {b : Allocation} {first : Nat} (hb : b ∈ live)
    (hl : 512 < b.size) (hr : RunState h.machine b first)
    (ho : ∀ i, first ≤ i → i < first + runPages b.size → L.owner i = some (.run b.addr)) :
    ∃ owner, Inv classes ⟨h.machine.free (first * pageSize) (runPages b.size), h.slabs⟩
      (live.filter fun b' => b'.addr ≠ b.addr) { L with owner := owner } := by
  have hkeep : ∀ i o, L.owner i = some o → o ≠ .run b.addr →
      ¬(first ≤ i ∧ i < first + runPages b.size) := by
    intro i o hio hne hin
    have hrun := ho i hin.1 hin.2
    rw [hio] at hrun
    exact hne (Option.some.inj hrun)
  refine ⟨fun i => if first ≤ i ∧ i < first + runPages b.size then none else L.owner i, ?_⟩
  refine ⟨Machine.free_ok hi.ok hr.positive hr.inside, hi.sizes, hi.absent, ?_, hi.chains,
    hi.nonempty, ?_, ?_, ?_, ?_, ?_⟩
  · intro i o hio
    simp only at hio
    split at hio
    next => cases hio
    next hout =>
      exact (Machine.free_used hi.ok hr.positive hr.inside i).mpr ⟨hi.owned i o hio, hout⟩
  · intro c hc a ha
    obtain ⟨i, hai, hbound, hio⟩ := hi.page c hc a ha
    refine ⟨i, hai, hbound, ?_⟩
    have hout := hkeep i _ hio (fun he => by cases he)
    exact (if_neg hout).trans hio
  · intro c hc a ha
    refine (hi.slab c hc a ha).congr rfl rfl (fun y hy => rfl) fun y hy => forall_filter_ne ?_
    rintro rfl
    exact hi.run_not_block hb hl hc ha hy
  · intro b' hb' hsmall
    exact hi.small b' (List.mem_of_mem_filter hb') hsmall
  · intro b' hb' hlarge
    obtain ⟨hmem, hne⟩ := List.mem_filter.mp hb'
    obtain ⟨first', hr', ho'⟩ := hi.large b' hmem hlarge
    refine ⟨first', hr'.congr rfl rfl, ?_⟩
    intro i h1 h2
    have hio := ho' i h1 h2
    have hout := hkeep i _ hio (fun he => by
      injection he with he
      exact absurd he (of_decide_eq_true hne))
    exact (if_neg hout).trans hio
  · exact hi.distinct.sublist (List.filter_sublist.map _)

/-- Clients write their own bytes. -/
theorem writes (hi : Inv classes h live L) {b : Allocation} {mem : Memory} (hb : b ∈ live)
    (hmem : ∀ x, ¬b.Covers x → mem x = h.machine.mem x) :
    Inv classes ⟨{ h.machine with mem := mem }, h.slabs⟩ live L := by
  have hword : ∀ w, (∀ x, b.Covers x → x < w ∨ w + 8 ≤ x) →
      mem.load64 w = h.machine.mem.load64 w := by
    intro w hw
    refine Memory.load64_congr fun x hlow hhigh => hmem x fun hx => ?_
    have hout := hw x hx
    omega
  refine ⟨⟨hi.ok.pmm, hi.ok.aligned, hi.ok.window, hi.ok.bound⟩, hi.sizes, hi.absent, hi.owned,
    ?_, hi.nonempty, hi.page, ?_, hi.small, ?_, hi.distinct⟩
  · intro c hc
    refine (hi.chains c hc).congr fun a ha => hword _ fun x hx => ?_
    have hout := hi.covers_header hb hx hc ha
    simp only [Slab.next]
    omega
  · intro c hc a ha
    refine (hi.slab c hc a ha).congr (hword _ fun x hx => ?_) (hword _ fun x hx => ?_) ?_
      fun y hy => Iff.rfl
    · have hout := hi.covers_header hb hx hc ha
      omega
    · have hout := hi.covers_header hb hx hc ha
      simp only [Slab.freeBlock]
      omega
    · intro y hy
      refine hword y fun x hx => ?_
      have hout := hi.covers_free hb hx hc ha hy
      omega
  · intro b' hb' hlarge
    obtain ⟨first, hr, ho⟩ := hi.large b' hb' hlarge
    have hn : 0 < runPages b'.size := Nat.succ_pos _
    refine ⟨first, hr.congr rfl (hword _ fun x hx => ?_), ho⟩
    have hout := hi.covers_headerPage hb hx hr (ho first (le_refl _) (by omega))
    omega

theorem write (hi : Inv classes h live L) {b : Allocation} {x : Nat} (byte : Byte)
    (hb : b ∈ live) (hx : b.Covers x) :
    Inv classes ⟨{ h.machine with mem := h.machine.mem.fill x 1 byte }, h.slabs⟩ live L := by
  refine hi.writes hb fun y hy => Memory.fill_outside _ _ ?_
  have hne : y ≠ x := by
    rintro rfl
    exact hy hx
  omega

end Inv

end Heap

end UmbraOS
