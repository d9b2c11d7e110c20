import UmbraOS.HeapAlloc

namespace UmbraOS

namespace Machine

variable {P : PageSource pageSize} {m m' : Machine P}

/-- A page has the same bytes in both machines. -/
def KeepsPage (m m' : Machine P) (i : Nat) : Prop :=
  ∀ x < pageSize, m'.mem (m.pageAt i + x) = m.mem (m.pageAt i + x)

theorem KeepsPage.byte {i x : Nat} (h : KeepsPage m m' i) (hlow : m.pageAt i ≤ x)
    (hhigh : x < m.pageAt i + 4096) : m'.mem x = m.mem x := by
  have hx := h (x - m.pageAt i) (by unfold pageSize; omega)
  rwa [Nat.add_sub_cancel' hlow] at hx

theorem KeepsPage.load64 {i w : Nat} (h : KeepsPage m m' i) (hlow : m.pageAt i ≤ w)
    (hhigh : w + 8 ≤ m.pageAt i + 4096) : m'.mem.load64 w = m.mem.load64 w :=
  Memory.load64_congr fun x hx hlt => h.byte (by omega) (by omega)

theorem KeepsPage.trans {m'' : Machine P} {i : Nat} (h : KeepsPage m m' i)
    (h' : KeepsPage m' m'' i) (hhdm : m'.hhdm = m.hhdm) : KeepsPage m m'' i := by
  intro x hx
  have hpage : m'.pageAt i = m.pageAt i := by rw [pageAt, hhdm, pageAt]
  have hlast := h' x hx
  rw [hpage] at hlast
  exact hlast.trans (h x hx)

/-- What is written in one page is not seen in another. -/
theorem keepsPage_of_outside {i j : Nat} (hij : i ≠ j)
    (h : ∀ x, x < m.pageAt j ∨ m.pageAt j + 4096 ≤ x → m'.mem x = m.mem x) : KeepsPage m m' i := by
  intro x hx
  refine h _ ?_
  have hap := Heap.pageAt_apart m hij
  unfold pageSize at hx
  omega

end Machine

namespace Heap

open Machine (KeepsPage)

variable {P : PageSource pageSize} {classes : List Nat} {h h' : Heap P} {live : List Allocation}
  {L L' : Layout}

/-- The heap depends on its own pages only. -/
theorem Inv.frame (hi : Inv classes h live L) {m : Machine P} (hok : m.Ok)
    (hhdm : m.hhdm = h.machine.hhdm) (hused : ∀ i, h.machine.Used i → m.Used i)
    (hkeep : ∀ i o, L.owner i = some o → KeepsPage h.machine m i) :
    Inv classes ⟨m, h.slabs⟩ live L := by
  have hp : ∀ i, m.pageAt i = h.machine.pageAt i := fun i => by rw [Machine.pageAt, hhdm, Machine.pageAt]
  refine ⟨hok, hi.sizes, hi.absent, fun i o ho => hused i (hi.owned i o ho), ?_, hi.nonempty, ?_,
    ?_, hi.small, ?_, hi.distinct⟩
  · intro c hc
    refine (hi.chains c hc).congr fun a ha => ?_
    obtain ⟨i, rfl, -, hio⟩ := hi.page c hc a ha
    refine (hkeep i _ hio).load64 ?_ ?_
    · omega
    · simp only [Slab.next]
      omega
  · intro c hc a ha
    obtain ⟨i, hai, hbound, hio⟩ := hi.page c hc a ha
    exact ⟨i, hai.trans (hp i).symm, hbound, hio⟩
  · intro c hc a ha
    have hst := hi.slab c hc a ha
    obtain ⟨i, rfl, -, hio⟩ := hi.page c hc a ha
    have hpage := hkeep i _ hio
    refine hst.congr (hpage.load64 (by omega) (by omega)) (hpage.load64 ?_ ?_) ?_ fun x hx => Iff.rfl
    · omega
    · simp only [Slab.freeBlock]
      omega
    · intro x hx
      have hin := (hst.blocks x hx).inside (hi.sizes c hc)
      have h8 := (Slab.sizes_fit c (hi.sizes c hc)).1
      exact hpage.load64 (by omega) (by omega)
  · intro b hb hlarge
    obtain ⟨first, hr, ho⟩ := hi.large b hb hlarge
    have hn : 0 < runPages b.size := Nat.succ_pos _
    have hfirst := hkeep first _ (ho first (le_refl _) (by omega))
    exact ⟨first, hr.congr hhdm (hfirst.load64 (le_refl _) (by omega)), ho⟩

/-- What the heap does to the rest of memory: it only takes pages that were not used, and what
was used and not its own keeps its bytes. -/
structure Grown (h : Heap P) (L : Layout) (h' : Heap P) (L' : Layout) : Prop where
  hhdm : h'.machine.hhdm = h.machine.hhdm
  used : ∀ i, h.machine.Used i → h'.machine.Used i
  foreign : ∀ i, h.machine.Used i → L.owner i = none →
    L'.owner i = none ∧ KeepsPage h.machine h'.machine i

theorem Grown.refl (h : Heap P) (L : Layout) : Grown h L h L :=
  ⟨rfl, fun _ hu => hu, fun _ _ ho => ⟨ho, fun _ _ => rfl⟩⟩

theorem Grown.trans {h'' : Heap P} {L'' : Layout} (hg : Grown h L h' L')
    (hg' : Grown h' L' h'' L'') : Grown h L h'' L'' where
  hhdm := hg'.hhdm.trans hg.hhdm
  used i hu := hg'.used i (hg.used i hu)
  foreign i hu ho := by
    obtain ⟨ho', hkeep⟩ := hg.foreign i hu ho
    obtain ⟨ho'', hkeep'⟩ := hg'.foreign i (hg.used i hu) ho'
    exact ⟨ho'', hkeep.trans hkeep' hg.hhdm⟩

/-- Taking a block writes to the header of a slab. -/
theorem Inv.take_grown (hi : Inv classes h live L) {c a : Nat} (hc : c ∈ classes)
    (ha : a ∈ L.chain c) (rest : List Nat) :
    Grown h L ⟨(Slab.takeBlock h.machine a).2, h.slabs⟩ (L.setFree a rest) := by
  obtain ⟨j, rfl, -, hj⟩ := hi.page c hc a ha
  refine ⟨rfl, fun i hu => hu, fun i _ ho => ⟨ho, ?_⟩⟩
  have hij : i ≠ j := by
    rintro rfl
    rw [hj] at ho
    cases ho
  refine Machine.keepsPage_of_outside hij fun x hx => Memory.store64_outside _ _ ?_
  simp only [Slab.freeBlock]
  omega

/-- A new slab takes a page that was not used. -/
theorem made_grown {c page : Nat} {m : Machine P} {slabs : Nat → Nat} {free : List Nat}
    (made : Slab.Made c h.machine page m) :
    Grown h L ⟨m, slabs⟩ (L.addSlab page c (h.machine.pageAt page) free) := by
  refine ⟨made.hhdm, fun i hu => (made.used i).mpr (Or.inl hu), fun i hu ho => ?_⟩
  have hne : i ≠ page := by
    rintro rfl
    exact made.unused hu
  exact ⟨(if_neg hne).trans ho, Machine.keepsPage_of_outside hne made.frame⟩

theorem Inv.grow_grown (hi : Inv classes h live L) {c page last : Nat} (hc : c ∈ classes)
    (hlast : last ∈ L.chain c) (made : Slab.Made c h.machine page (Slab.newSlab c h.machine).2)
    (free : List Nat) : Grown h L ⟨Slab.grown c h.machine last, h.slabs⟩
      (L.addSlab page c (h.machine.pageAt page) free) := by
  have hmade : Grown h L ⟨(Slab.newSlab c h.machine).2, h.slabs⟩
      (L.addSlab page c (h.machine.pageAt page) free) := made_grown made
  obtain ⟨j, rfl, -, hj⟩ := hi.page c hc last hlast
  refine ⟨hmade.hhdm, hmade.used, fun i hu ho => ?_⟩
  obtain ⟨ho', hkeep⟩ := hmade.foreign i hu ho
  have hij : i ≠ j := by
    rintro rfl
    rw [hj] at ho
    cases ho
  refine ⟨ho', fun x hx => ?_⟩
  have hap := pageAt_apart h.machine hij
  have hstore : (Slab.grown c h.machine (h.machine.pageAt j)).mem (h.machine.pageAt i + x) =
      (Slab.newSlab c h.machine).2.mem (h.machine.pageAt i + x) := by
    refine Memory.store64_outside _ _ ?_
    simp only [Slab.next]
    unfold pageSize at hx
    omega
  exact hstore.trans (hkeep x hx)

/-- A large allocation takes pages that were not used. -/
theorem run_grown {page n addr : Nat} {pmm : P.State} (hn : 0 < n)
    (hunused : ∀ i, page ≤ i → i < page + n → ¬h.machine.Used i)
    (hused : ∀ i, P.used pmm i ↔ h.machine.Used i ∨ page ≤ i ∧ i < page + n) (k : Nat) :
    Grown h L ⟨⟨runHeader h.machine.mem (h.machine.pageAt page) k, pmm, h.machine.hhdm,
      h.machine.refused⟩, h.slabs⟩ (L.addRun page n addr) := by
  refine ⟨rfl, fun i hu => (hused i).mpr (Or.inl hu), fun i hu ho => ?_⟩
  have hout : ¬(page ≤ i ∧ i < page + n) := fun hin => hunused i hin.1 hin.2 hu
  refine ⟨(if_neg hout).trans ho, ?_⟩
  have hne : i ≠ page := by omega
  refine Machine.keepsPage_of_outside hne fun x hx => ?_
  simp only [runHeader, Slab.freeBlock, Slab.next]
  rw [Memory.store64_outside _ _ (by omega), Memory.store64_outside _ _ (by omega),
    Memory.store64_outside _ _ (by omega)]

end Heap

end UmbraOS
