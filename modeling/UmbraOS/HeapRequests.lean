import UmbraOS.HeapHistory

namespace UmbraOS

namespace Heap

variable {P : PageSource pageSize}

/-- The bytes behind a pointer that `kmalloc` means to reserve: a block of the slab size it chooses, or the
pages behind the header page. -/
def reserved (size : Nat) : Nat :=
  match slabSize size with
  | some c => c
  | none => (u64 (alignUp size pageSize / pageSize + 1) - 1) * pageSize

/-- The `n` bytes at `p` were reserved on the way from `h` to `h'`: they are in a block of a slab, or in
pages that were not used before. -/
def Reserves (h h' : Heap P) (p n : Nat) : Prop :=
  (∃ c slab, SlabPage h' c slab ∧ Slab.IsBlock c slab p ∧ n ≤ c) ∨
    ∀ x, p ≤ x → x < p + n → ∃ i, h'.machine.pageAt i ≤ x ∧ x < h'.machine.pageAt i + pageSize ∧
      h'.machine.Used i ∧ ¬h.machine.Used i

/-- A call of a session, or of `kmalloc` with a size that rounding up takes past 2 ^ 64; its caller owns no
byte of what it gets. -/
inductive AnyStep : Session P → Session P → Prop
  | step {s s' : Session P} (step : Step s s') : AnyStep s s'
  | wrapped (s : Session P) (size : BitVec 64) (hs : 2 ^ 64 ≤ size.toNat + 4095) (r : Nat × Heap P)
      (call : s.heap.kmalloc size.toNat = some r) : AnyStep s ⟨r.2, s.live⟩

theorem slabSize_eq_none {size : Nat} (h : 512 < size) : slabSize size = none := by
  unfold slabSize
  rw [List.find?_eq_none]
  intro c hc hle
  have hsize := of_decide_eq_true hle
  have hlast := (Slab.sizes_fit c hc).2.1
  omega

theorem lt_of_slabSize_eq_none {size : Nat} (h : slabSize size = none) : 512 < size := by
  have hnone := List.find?_eq_none.mp h 512 (by decide)
  exact Nat.lt_of_not_le fun hle => hnone (decide_eq_true hle)

theorem le_of_slabSize {size c : Nat} (h : slabSize size = some c) : c ∈ Slab.sizes ∧ size ≤ c :=
  ⟨List.mem_of_find?_eq_some h, by simpa using List.find?_some h⟩

/-- Rounding up wraps to 0, and the header page is all that is asked for. -/
theorem pages_wrapped {size : Nat} (hs : size < 2 ^ 64) (h : 2 ^ 64 ≤ size + 4095) :
    u64 (alignUp size pageSize / pageSize + 1) = 1 := by
  have hround : alignUp size pageSize = 0 := by
    unfold alignUp alignDown u64 pageSize
    omega
  rw [hround]
  rfl

theorem kmalloc_large {h : Heap P} {size : Nat} (hl : 512 < size) :
    h.kmalloc size = some ((kmallocPages h.machine size).1, ⟨(kmallocPages h.machine size).2, h.slabs⟩) := by
  unfold kmalloc
  rw [slabSize_eq_none hl]

theorem kmallocPages_wrapped (m : Machine P) {size : Nat} (hs : size < 2 ^ 64) (h : 2 ^ 64 ≤ size + 4095) :
    kmallocPages m size = withHeader (m.alloc 1) 1 := by
  rw [kmallocPages, pages_wrapped hs h]
  rfl

section Inv

variable {h : Heap P} {live : List Allocation} {L : Layout}

/-- The header of a wrapped request is written to a page of its own. -/
theorem Inv.kmalloc_wrapped (hi : Inv Slab.sizes h live L) {size : Nat} (hs : size < 2 ^ 64)
    (hw : 2 ^ 64 ≤ size + 4095) {r : Nat × Heap P} (call : h.kmalloc size = some r)
    (hr : r.2.machine.refused = false) : Inv Slab.sizes r.2 live L ∧ ∃ page,
      r.1 = h.machine.pageAt (page + 1) ∧ r.2.machine.hhdm = h.machine.hhdm ∧
      ∀ i, r.2.machine.Used i ↔ h.machine.Used i ∨ i = page := by
  rw [kmalloc_large (by omega)] at call
  obtain rfl := Option.some.inj call
  rw [kmallocPages_wrapped _ hs hw] at hr ⊢
  have hcall := Machine.alloc_spec hi.ok Nat.one_pos
  generalize h.machine.alloc 1 = r at hcall hr ⊢
  cases hcall with
  | refused pmm ok used => cases hr
  | run page pmm ok positive inside unused used =>
    have haddr : page * pageSize + h.machine.hhdm + pageSize = h.machine.pageAt (page + 1) := by
      simp only [Machine.pageAt, pageSize]
      omega
    have hpage : page * pageSize + h.machine.hhdm = h.machine.pageAt page := rfl
    have hused : ∀ i, P.used pmm i ↔ h.machine.Used i ∨ i = page := by
      intro i
      rw [used i]
      exact or_congr_right (by omega)
    refine ⟨?_, page, haddr, rfl, hused⟩
    have hframe := hi.frame (m := ⟨runHeader h.machine.mem (h.machine.pageAt page) 1, pmm, h.machine.hhdm,
      h.machine.refused⟩) ⟨ok, hi.ok.aligned, hi.ok.window, hi.ok.bound⟩ rfl
      (fun i hu => (hused i).mpr (Or.inl hu)) fun i o ho => ?_
    · exact hframe
    · refine Machine.keepsPage_of_outside (hi.owned_ne ho (unused page (le_refl _) (by omega))) fun x hx => ?_
      simp only [runHeader, Slab.freeBlock, Slab.next]
      rw [Memory.store64_outside _ _ (by omega), Memory.store64_outside _ _ (by omega),
        Memory.store64_outside _ _ (by omega)]

/-- A call reserves what it means to, if it gets its pages. -/
theorem Inv.reserves (hi : Inv Slab.sizes h live L) {size : Nat} (hs : size < 2 ^ 64) {r : Nat × Heap P}
    (call : h.kmalloc size = some r) (hr : r.2.machine.refused = false) :
    Reserves h r.2 r.1 (reserved size) := by
  unfold reserved
  cases hc : slabSize size with
  | some c =>
    show Reserves h r.2 r.1 c
    obtain ⟨hmem, -⟩ := le_of_slabSize hc
    obtain ⟨q, hq, hserved⟩ := hi.kmalloc_slab hmem (le_refl c)
    have hsame : r = (q.1, ⟨q.2, h.slabs⟩) := by
      unfold Heap.kmalloc at call
      rw [hc] at call
      simp only [hq, Option.map_some] at call
      exact (Option.some.inj call).symm
    obtain ⟨L', hinv, -⟩ := hserved (by rw [hsame] at hr; exact hr)
    have hsmall := (Slab.sizes_fit c hmem).2.1
    obtain ⟨c', hc', a, ha, hblock, hle⟩ := hinv.small _ List.mem_cons_self hsmall
    rw [hsame]
    exact Or.inl ⟨c', a, hinv.slabPage.mpr ⟨hc', ha⟩, hblock, hle⟩
  | none =>
    show Reserves h r.2 r.1 ((u64 (alignUp size pageSize / pageSize + 1) - 1) * pageSize)
    by_cases hw : 2 ^ 64 ≤ size + 4095
    · refine Or.inr fun x hlow hhigh => ?_
      rw [pages_wrapped hs hw] at hhigh
      omega
    · have hl := lt_of_slabSize_eq_none hc
      have hfit : size + 4095 < 2 ^ 64 := by omega
      obtain ⟨q, hq, hserved⟩ := hi.kmalloc_apart hfit
      obtain rfl := Option.some.inj (call.symm.trans hq)
      obtain ⟨L', hinv, -⟩ := hserved hr
      obtain ⟨first, hrun, -⟩ := hinv.large _ List.mem_cons_self hl
      have haddr : r.1 = r.2.machine.pageAt (first + 1) := hrun.addr
      have htaken : ∀ i, r.2.machine.Used i ∧ ¬h.machine.Used i ↔ first ≤ i ∧ i < first + runPages size :=
        hrun.taken
      refine Or.inr fun x hlow hhigh => ?_
      rw [runPages_eq hfit] at hhigh
      unfold pageSize at hhigh
      -- the page of `x`, counted from the first behind the header
      obtain ⟨k, hk, hbelow, habove⟩ : ∃ k, k + 1 < runPages size ∧ r.1 + k * 4096 ≤ x ∧
          x < r.1 + k * 4096 + 4096 := ⟨(x - r.1) / 4096, by omega, by omega, by omega⟩
      have hpage : r.2.machine.pageAt (first + 1 + k) = r.1 + k * 4096 := by
        rw [haddr]
        simp only [Machine.pageAt, pageSize]
        ring
      refine ⟨first + 1 + k, ?_, ?_, (htaken _).mpr ⟨by omega, by omega⟩⟩
      · rw [hpage]
        exact hbelow
      · rw [hpage]
        exact habove

/-- A wrapped request has no byte behind its header page. -/
theorem Inv.not_reserves_wrapped (hi : Inv Slab.sizes h live L) {size : Nat} (hs : size < 2 ^ 64)
    (hw : 2 ^ 64 ≤ size + 4095) {r : Nat × Heap P} (call : h.kmalloc size = some r)
    (hr : r.2.machine.refused = false) : ¬Reserves h r.2 r.1 size := by
  obtain ⟨-, page, haddr, hhdm, hused⟩ := hi.kmalloc_wrapped hs hw call hr
  rintro (⟨c, slab, ⟨hc, -⟩, -, hle⟩ | hpages)
  · have hsmall := (Slab.sizes_fit c hc).2.1
    omega
  · obtain ⟨i, hlow, hhigh, hafter, hbefore⟩ := hpages r.1 (le_refl _) (by omega)
    rcases (hused i).mp hafter with hu | rfl
    · exact hbefore hu
    · rw [haddr] at hhigh
      simp only [Machine.pageAt, pageSize, hhdm] at hhigh
      omega

end Inv

theorem Reserves.mono {h h' : Heap P} {p n n' : Nat} (hr : Reserves h h' p n) (hle : n' ≤ n) :
    Reserves h h' p n' := by
  rcases hr with ⟨c, slab, hpage, hblock, hfit⟩ | hpages
  · exact Or.inl ⟨c, slab, hpage, hblock, hle.trans hfit⟩
  · exact Or.inr fun x hlow hhigh => hpages x hlow (by omega)

/-- What `kmalloc` means to reserve is enough, unless rounding up wraps. -/
theorem size_le_reserved {size : Nat} (hs : size + 4095 < 2 ^ 64) : size ≤ reserved size := by
  unfold reserved
  cases hc : slabSize size with
  | some c => exact (le_of_slabSize hc).2
  | none =>
    simp only
    rw [runPages_eq hs, runPages, Nat.add_sub_cancel]
    unfold pageSize
    omega

theorem AnyStep.keeps {s s' : Session P} (step : AnyStep s s')
    (hi : s.heap.machine.refused = false → ∃ L, Inv Slab.sizes s.heap s.live L)
    (hr : s'.heap.machine.refused = false) : ∃ L, Inv Slab.sizes s'.heap s'.live L := by
  cases step with
  | step step => exact step.keeps hi hr
  | wrapped size hs r call =>
    obtain ⟨L, hinv⟩ := hi (granted_before call hr)
    exact ⟨L, (hinv.kmalloc_wrapped size.isLt hs call hr).1⟩

theorem AnyStep.reach {m : Machine P} (hm : m.Ok) {s : Session P}
    (reach : Relation.ReflTransGen AnyStep (Session.start m) s) (hr : s.heap.machine.refused = false) :
    ∃ L, Inv Slab.sizes s.heap s.live L := by
  have hinv : s.heap.machine.refused = false → ∃ L, Inv Slab.sizes s.heap s.live L := by
    clear hr
    induction reach with
    | refl => exact Inv.init hm
    | tail _ step ih => exact step.keeps ih
  exact hinv hr

/-- In every state of the heap, a call whose pages are granted reserves the bytes it is asked for exactly
when the size is at most 2 ^ 64 - 4096. -/
theorem kmalloc_reserves_iff {m : Machine P} (hm : m.Ok) {s : Session P}
    (reach : Relation.ReflTransGen AnyStep (Session.start m) s) (size : BitVec 64) {r : Nat × Heap P}
    (call : s.heap.kmalloc size.toNat = some r) (hr : r.2.machine.refused = false) :
    Reserves s.heap r.2 r.1 size.toNat ↔ size.toNat + 4095 < 2 ^ 64 := by
  obtain ⟨L, hi⟩ := AnyStep.reach hm reach (granted_before call hr)
  constructor
  · intro h
    by_contra hw
    exact hi.not_reserves_wrapped size.isLt (by omega) call hr h
  · intro hs
    exact (hi.reserves size.isLt call hr).mono (size_le_reserved hs)

theorem bootBlock_reserves : Reserves bootHeap ⟨bootBlock.2, bootHeap.slabs⟩ bootBlock.1 600 ↔
    600 + 4095 < 2 ^ 64 :=
  kmalloc_reserves_iff Vmm.bootMachine_ok .refl 600#64 bootBlock_call (by decide +kernel)

/-- The largest size gets a pointer behind the only page that was taken for it. -/
theorem largest_reserves_nothing : ¬∀ (m : Machine (Pmm.source 8 Vmm.bootPmm_limit)) (s : Session _)
    (size : BitVec 64) (r : Nat × Heap _), m.Ok → Relation.ReflTransGen AnyStep (Session.start m) s →
      s.heap.kmalloc size.toNat = some r → r.2.machine.refused = false →
      Reserves s.heap r.2 r.1 size.toNat := by
  intro h
  have hcall : bootHeap.kmalloc (18446744073709551615#64).toNat = some _ := kmalloc_large (by decide)
  have hr : (kmallocPages bootHeap.machine (18446744073709551615#64).toNat).2.refused = false := by decide +kernel
  have hreserves := h Vmm.bootMachine ⟨bootHeap, []⟩ 18446744073709551615#64 _ Vmm.bootMachine_ok .refl hcall hr
  obtain ⟨L, hi⟩ := AnyStep.reach Vmm.bootMachine_ok (s := ⟨bootHeap, []⟩) .refl (by decide +kernel)
  exact hi.not_reserves_wrapped (by decide) (by decide) hcall hr hreserves

end Heap

end UmbraOS
