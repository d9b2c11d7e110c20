import UmbraOS.HeapSteps

namespace UmbraOS

namespace Heap

variable {P : PageSource pageSize}

def Layout.addSlab (L : Layout) (page c slab : Nat) (free : List Nat) : Layout where
  owner i := if i = page then some (.slab c) else L.owner i
  chain c' := if c' = c then L.chain c ++ [slab] else L.chain c'
  free s := if s = slab then free else L.free s

def Layout.addRun (L : Layout) (first n addr : Nat) : Layout :=
  { L with owner := fun i => if first ≤ i ∧ i < first + n then some (.run addr) else L.owner i }

/-- The pages that had an owner keep it, and their words besides `next`. -/
structure PagesKept (h h' : Heap P) (L L' : Layout) : Prop where
  hhdm : h'.machine.hhdm = h.machine.hhdm
  owner : ∀ i o, L.owner i = some o → L'.owner i = some o
  words : ∀ i o w, L.owner i = some o → 8 ∣ w → w % 4096 ≠ 16 → h.machine.pageAt i ≤ w →
    w + 8 ≤ h.machine.pageAt i + 4096 → h'.machine.mem.load64 w = h.machine.mem.load64 w

namespace PagesKept

variable {classes : List Nat} {h h' : Heap P} {live live' : List Allocation} {L L' : Layout}

theorem pageAt (hk : PagesKept h h' L L') (i : Nat) : h'.machine.pageAt i = h.machine.pageAt i := by
  rw [Machine.pageAt, Machine.pageAt, hk.hhdm]

theorem page (hk : PagesKept h h' L L') (hi : Inv classes h live L) {c a : Nat} (hc : c ∈ classes)
    (ha : a ∈ L.chain c) :
    ∃ i, a = h'.machine.pageAt i ∧ i < P.bound ∧ L'.owner i = some (.slab c) := by
  obtain ⟨i, hai, hbound, ho⟩ := hi.page c hc a ha
  exact ⟨i, hai.trans (hk.pageAt i).symm, hbound, hk.owner i _ ho⟩

theorem slab (hk : PagesKept h h' L L') (hi : Inv classes h live L) {c a : Nat} (hc : c ∈ classes)
    (ha : a ∈ L.chain c)
    (hlive : ∀ x, Slab.IsBlock c a x → ((∀ b ∈ live', b.addr ≠ x) ↔ ∀ b ∈ live, b.addr ≠ x)) :
    SlabState h'.machine.mem live' c a (L.free a) := by
  obtain ⟨i, hai, -, ho⟩ := hi.page c hc a ha
  exact hi.slab_kept hc ha (fun w hw hmod hlow hhigh => hk.words i _ w ho hw hmod (by omega) (by omega))
    hlive

theorem large (hk : PagesKept h h' L L') (hi : Inv classes h live L) {b : Allocation} (hb : b ∈ live)
    (hl : 512 < b.size) : ∃ first, RunState h'.machine b first ∧
      ∀ i, first ≤ i → i < first + runPages b.size → L'.owner i = some (.run b.addr) := by
  obtain ⟨first, hr, ho⟩ := hi.large b hb hl
  have hn : 0 < runPages b.size := Nat.succ_pos _
  have hdf := pageAt_dvd hi.ok first
  have hheader := hk.words first _ (h.machine.pageAt first) (ho first (le_refl _) (by omega)) (by omega)
    (by omega) (le_refl _) (by omega)
  exact ⟨first, hr.congr hk.hhdm hheader, fun i h1 h2 => hk.owner i _ (ho i h1 h2)⟩

end PagesKept

namespace Inv

variable {classes : List Nat} {h : Heap P} {live : List Allocation} {L : Layout}

theorem fresh_owner (hi : Inv classes h live L) {i : Nat} (hu : ¬h.machine.Used i) :
    L.owner i = none := by
  cases ho : L.owner i with
  | none => rfl
  | some o => exact absurd (hi.owned i o ho) hu

theorem owned_ne (hi : Inv classes h live L) {i j : Nat} {o : Owner} (ho : L.owner i = some o)
    (hu : ¬h.machine.Used j) : i ≠ j := by
  rintro rfl
  exact hu (hi.owned i o ho)

/-- No live pointer lies in a page that was not used. -/
theorem addr_outside (hi : Inv classes h live L) {b : Allocation} {i : Nat} (hb : b ∈ live)
    (hu : ¬h.machine.Used i) :
    b.addr < h.machine.pageAt i ∨ h.machine.pageAt i + 4096 ≤ b.addr := by
  rcases Nat.lt_or_ge 512 b.size with hl | hs
  · obtain ⟨first, hr, ho⟩ := hi.large b hb hl
    have hn : 1 < runPages b.size := by simp only [runPages]; omega
    have hne := hi.owned_ne (ho (first + 1) (by omega) (by omega)) hu
    have hap := pageAt_apart h.machine hne
    have haddr := hr.addr
    omega
  · obtain ⟨c, hc, a, ha, hblock, _⟩ := hi.small b hb hs
    obtain ⟨j, rfl, _, ho⟩ := hi.page c hc a ha
    have hin := hblock.inside (hi.sizes c hc)
    have hne := hi.owned_ne ho hu
    have hap := pageAt_apart h.machine hne
    have h8 := (Slab.sizes_fit c (hi.sizes c hc)).1
    omega

/-- The blocks of a page of `new_slab` are all free. -/
theorem made_slab (hi : Inv classes h live L) {m : Machine P} {mem : Memory} {c page : Nat}
    (hc : c ∈ Slab.sizes) (made : Slab.Made c h.machine page m)
    (hmem : ∀ w, 8 ∣ w → w % 4096 ≠ 16 → mem.load64 w = m.mem.load64 w) :
    SlabState mem live c (h.machine.pageAt page) (Slab.blocks c (h.machine.pageAt page)) := by
  have hdvd := pageAt_dvd hi.ok page
  have hlist := made.fresh.list hc (pageAt_end hi.ok made.inside)
  refine ⟨?_, ?_, fun x hx => Slab.mem_blocks.mp hx, ?_⟩
  · rw [hmem _ (by omega) (by omega), made.fresh.size]
  · rw [hmem _ (by simp only [Slab.freeBlock]; omega) (by simp only [Slab.freeBlock]; omega)]
    refine hlist.congr fun x hx => ?_
    have hblock := Slab.mem_blocks.mp hx
    have hmod := hblock.mod hc hdvd
    exact hmem x (hblock.aligned hc (by omega)) (by omega)
  · intro x hx
    have hin := hx.inside hc
    have h8 := (Slab.sizes_fit c hc).1
    refine ⟨fun _ b hb => ?_, fun _ => Slab.mem_blocks.mpr hx⟩
    have hout := hi.addr_outside hb made.unused
    omega

/-- `new_slab` leaves the links of the slabs the heap already has. -/
theorem made_next (hi : Inv classes h live L) {m : Machine P} {c c' page a : Nat}
    (made : Slab.Made c h.machine page m) (hc : c' ∈ classes) (ha : a ∈ L.chain c') :
    m.mem.load64 (a + Slab.next) = h.machine.mem.load64 (a + Slab.next) := by
  obtain ⟨i, rfl, -, hio⟩ := hi.page c' hc a ha
  have hap := pageAt_apart h.machine (hi.owned_ne hio made.unused)
  refine Memory.load64_congr fun x hx hlt => made.frame x ?_
  simp only [Slab.next] at hx hlt
  omega

/-- A slab of the longer chains is the new one or was there before. -/
theorem addSlab_chain (hi : Inv classes h live L) {c c' page a slab : Nat} {free : List Nat}
    (ha : a ∈ (L.addSlab page c slab free).chain c') :
    c' = c ∧ a = slab ∨ c' ∈ classes ∧ a ∈ L.chain c' := by
  have hback : a ∈ L.chain c' → c' ∈ classes ∧ a ∈ L.chain c' := by
    intro hin
    refine ⟨?_, hin⟩
    by_contra hn
    rw [hi.absent c' hn] at hin
    cases hin
  simp only [Layout.addSlab] at ha
  split at ha
  next he =>
    subst he
    rcases List.mem_append.mp ha with hin | hin
    · exact Or.inr (hback hin)
    · exact Or.inl ⟨rfl, List.mem_singleton.mp hin⟩
  next => exact Or.inr (hback ha)

/-- A page of `new_slab` joins the chain of its size. Apart from that page only `next` words
may have changed. -/
theorem addSlab (hi : Inv classes h live L) {h' : Heap P} {m : Machine P} {c page : Nat}
    {classes' : List Nat} (hc : c ∈ Slab.sizes) (made : Slab.Made c h.machine page m)
    (hclasses : ∀ c', c' ∈ classes' ↔ c' = c ∨ c' ∈ classes) (hok : h'.machine.Ok)
    (hhdm : h'.machine.hhdm = m.hhdm) (hused : ∀ i, h'.machine.Used i ↔ m.Used i)
    (hmem : ∀ w, 8 ∣ w → w % 4096 ≠ 16 → h'.machine.mem.load64 w = m.mem.load64 w)
    (hchains : ∀ c' ∈ classes', WordList h'.machine.mem Slab.next (h'.slabs c')
      ((L.addSlab page c (h.machine.pageAt page)
        (Slab.blocks c (h.machine.pageAt page))).chain c')) :
    Inv classes' h' live
      (L.addSlab page c (h.machine.pageAt page) (Slab.blocks c (h.machine.pageAt page))) := by
  have hkept : PagesKept h h' L
      (L.addSlab page c (h.machine.pageAt page) (Slab.blocks c (h.machine.pageAt page))) := by
    refine ⟨hhdm.trans made.hhdm, fun i o ho => (if_neg (hi.owned_ne ho made.unused)).trans ho, ?_⟩
    intro i o w ho hw hmod hlow hhigh
    have hap := pageAt_apart h.machine (hi.owned_ne ho made.unused)
    rw [hmem w hw hmod]
    exact Memory.load64_congr fun x hx hlt => made.frame x (by omega)
  refine ⟨hok, ?_, ?_, ?_, hchains, ?_, ?_, ?_, ?_, ?_, hi.distinct⟩
  · intro c' hc'
    rcases (hclasses c').mp hc' with rfl | hin
    · exact hc
    · exact hi.sizes c' hin
  · intro c' hc'
    have hne : c' ≠ c := fun he => hc' ((hclasses c').mpr (Or.inl he))
    simp only [Layout.addSlab, if_neg hne]
    exact hi.absent c' fun hin => hc' ((hclasses c').mpr (Or.inr hin))
  · intro i o hio
    rw [hused, made.used]
    simp only [Layout.addSlab] at hio
    split at hio
    next he => exact Or.inr he
    next => exact Or.inl (hi.owned i o hio)
  · intro c' hc'
    simp only [Layout.addSlab]
    split
    next => simp
    next hne => exact hi.nonempty c' (((hclasses c').mp hc').resolve_left hne)
  · intro c' hc' a ha
    rcases hi.addSlab_chain ha with ⟨rfl, rfl⟩ | ⟨hin, ha⟩
    · exact ⟨page, (hkept.pageAt page).symm, made.inside, if_pos rfl⟩
    · exact hkept.page hi hin ha
  · intro c' hc' a ha
    rcases hi.addSlab_chain ha with ⟨rfl, rfl⟩ | ⟨hin, ha⟩
    · simp only [Layout.addSlab, if_true]
      exact hi.made_slab hc made hmem
    · obtain ⟨i, rfl, -, hio⟩ := hi.page c' hin a ha
      have hne : h.machine.pageAt i ≠ h.machine.pageAt page := fun he =>
        hi.owned_ne hio made.unused (pageAt_inj he)
      simp only [Layout.addSlab, if_neg hne]
      exact hkept.slab hi hin ha fun x _ => Iff.rfl
  · intro b hb hs
    obtain ⟨c', hc', a, ha, hblock, hfit⟩ := hi.small b hb hs
    refine ⟨c', (hclasses c').mpr (Or.inr hc'), a, ?_, hblock, hfit⟩
    simp only [Layout.addSlab]
    split
    next he => exact List.mem_append_left _ (he ▸ ha)
    next => exact ha
  · exact fun b hb hl => hkept.large hi hb hl

/-- A run of unused pages with its header written becomes a large allocation. -/
theorem addRun (hi : Inv classes h live L) {h' : Heap P} {first size : Nat}
    {taken : Nat → Prop} (hl : 512 < size) (hslabs : h'.slabs = h.slabs) (hok : h'.machine.Ok)
    (hhdm : h'.machine.hhdm = h.machine.hhdm) (hpos : 0 < first)
    (hin : first + runPages size ≤ P.bound)
    (hunused : ∀ i, first ≤ i → i < first + runPages size → ¬h.machine.Used i)
    (hused : ∀ i, h'.machine.Used i ↔
      h.machine.Used i ∨ first ≤ i ∧ i < first + runPages size)
    (hheader : h'.machine.mem.load64 (h.machine.pageAt first) =
      BitVec.ofNat 64 (runPages size))
    (hmem : ∀ w, w + 8 ≤ h.machine.pageAt first ∨ h.machine.pageAt first + 4096 ≤ w →
      h'.machine.mem.load64 w = h.machine.mem.load64 w)
    (htaken : ∀ i, taken i ↔ first ≤ i ∧ i < first + runPages size) :
    Inv classes h' (⟨h.machine.pageAt (first + 1), size, taken⟩ :: live)
      (L.addRun first (runPages size) (h.machine.pageAt (first + 1))) := by
  have hn : 1 < runPages size := by
    simp only [runPages]
    omega
  have hfirst : ¬h.machine.Used first := hunused first (le_refl _) (by omega)
  have hold : ∀ i o w, L.owner i = some o → h.machine.pageAt i ≤ w →
      w + 8 ≤ h.machine.pageAt i + 4096 →
      h'.machine.mem.load64 w = h.machine.mem.load64 w := by
    intro i o w ho hlow hhigh
    have hap := pageAt_apart h.machine (hi.owned_ne ho hfirst)
    exact hmem w (by omega)
  have hkept : PagesKept h h' L (L.addRun first (runPages size) (h.machine.pageAt (first + 1))) := by
    refine ⟨hhdm, ?_, fun i o w ho _ _ => hold i o w ho⟩
    intro i o ho
    have hout : ¬(first ≤ i ∧ i < first + runPages size) := fun hin =>
      hi.owned_ne ho (hunused i hin.1 hin.2) rfl
    exact (if_neg hout).trans ho
  have hout : ∀ b ∈ live, b.addr ≠ h.machine.pageAt (first + 1) := by
    intro b hb he
    have hmiss := hi.addr_outside hb (hunused (first + 1) (by omega) (by omega))
    omega
  refine ⟨hok, hi.sizes, hi.absent, ?_, ?_, hi.nonempty, ?_, ?_, ?_, ?_, ?_⟩
  · intro i o hio
    rw [hused]
    simp only [Layout.addRun] at hio
    split at hio
    next hin => exact Or.inr hin
    next => exact Or.inl (hi.owned i o hio)
  · intro c hc
    rw [hslabs]
    refine (hi.chains c hc).congr fun a ha => ?_
    obtain ⟨i, rfl, _, hio⟩ := hi.page c hc a ha
    refine hold i _ _ hio ?_ ?_ <;> simp only [Slab.next] <;> omega
  · exact fun c hc a ha => hkept.page hi hc ha
  · intro c hc a ha
    have hda := hi.dvd hc ha
    have hdf := pageAt_dvd hi.ok (first + 1)
    refine hkept.slab hi hc ha ?_
    intro x hx
    have hmod := hx.mod (hi.sizes c hc) hda
    have hne : h.machine.pageAt (first + 1) ≠ x := by omega
    rw [List.forall_mem_cons]
    exact ⟨fun hall => hall.2, fun hall => ⟨hne, hall⟩⟩
  · intro b hb hs
    rcases List.mem_cons.mp hb with rfl | hb
    · exact absurd (Nat.lt_of_lt_of_le hl hs) (Nat.lt_irrefl _)
    · exact hi.small b hb hs
  · intro b hb hlarge
    rcases List.mem_cons.mp hb with rfl | hb
    · refine ⟨first, ⟨(hkept.pageAt _).symm, hpos, hin, by rw [hkept.pageAt]; exact hheader, htaken⟩, ?_⟩
      intro i h1 h2
      exact if_pos ⟨h1, h2⟩
    · exact hkept.large hi hb hlarge
  · rw [List.map_cons, List.nodup_cons]
    refine ⟨?_, hi.distinct⟩
    intro hm
    obtain ⟨b, hb, he⟩ := List.mem_map.mp hm
    exact hout b hb he

end Inv

theorem runPages_eq {size : Nat} (hs : size + 4095 < 2 ^ 64) :
    u64 (alignUp size pageSize / pageSize + 1) = runPages size := by
  rw [alignUp_page hs, pageSize, Nat.mul_div_cancel _ (by decide), u64_of_lt (by omega), runPages]

/-- The words `kmalloc` writes in front of a large allocation. -/
def runHeader (mem : Memory) (addr n : Nat) : Memory :=
  ((mem.store64 addr (BitVec.ofNat 64 n)).store64 (addr + Slab.freeBlock) 0#64).store64
    (addr + Slab.next) 0#64

theorem runHeader_outside (mem : Memory) {addr n w : Nat} (h : w + 8 ≤ addr ∨ addr + 4096 ≤ w) :
    (runHeader mem addr n).load64 w = mem.load64 w := by
  simp only [runHeader, Slab.freeBlock, Slab.next]
  rw [Memory.load64_store64_disjoint _ _ (by omega), Memory.load64_store64_disjoint _ _ (by omega),
    Memory.load64_store64_disjoint _ _ (by omega)]

theorem runHeader_size (mem : Memory) (addr n : Nat) :
    (runHeader mem addr n).load64 addr = BitVec.ofNat 64 n := by
  simp only [runHeader, Slab.freeBlock, Slab.next]
  rw [Memory.load64_store64_disjoint _ _ (by omega), Memory.load64_store64_disjoint _ _ (by omega),
    Memory.load64_store64]

/-- The machine and the pointer of a large request whose pages were answered by `r`. -/
def withHeader (r : Nat × Machine P) (n : Nat) : Nat × Machine P :=
  (r.2.physToVirt r.1 + pageSize,
    ⟨runHeader r.2.mem (r.2.physToVirt r.1) n, r.2.pmm, r.2.hhdm, r.2.refused⟩)

theorem kmallocPages_eq (m : Machine P) {size : Nat} (hs : size + 4095 < 2 ^ 64) :
    kmallocPages m size = withHeader (m.alloc (runPages size)) (runPages size) := by
  rw [kmallocPages, runPages_eq hs]
  rfl

end Heap

end UmbraOS
