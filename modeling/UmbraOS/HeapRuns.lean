import Mathlib.Logic.Relation
import UmbraOS.HeapFrame

namespace UmbraOS

namespace Heap

variable {P : PageSource pageSize}

theorem newSlab_refused {m : Machine P} (c : Nat) (h : m.refused = true) :
    (Slab.newSlab c m).2.refused = true := by
  rw [Slab.newSlab_eq]
  exact Machine.calloc_refused h 1

theorem growChain_refused {m : Machine P} (c slab : Nat) (h : m.refused = true) :
    (Slab.growChain c m slab).refused = true := by
  simp only [Slab.growChain]
  split
  · exact newSlab_refused c h
  · exact h

theorem alloc_refused {m : Machine P} {c fuel slab : Nat} {r : Nat × Machine P}
    (h : m.refused = true) (hr : Slab.alloc c fuel m slab = some r) : r.2.refused = true := by
  induction fuel generalizing m slab with
  | zero => cases hr
  | succ fuel ih =>
    rw [Slab.alloc] at hr
    split at hr
    next => exact ih (growChain_refused c slab h) hr
    next =>
      obtain rfl := Option.some.inj hr
      rw [Slab.takeBlock_refused]
      exact h

theorem kmallocPages_refused {m : Machine P} (h : m.refused = true) (size : Nat) :
    (kmallocPages m size).2.refused = true := by
  simp only [kmallocPages]
  exact Machine.alloc_refused h _

/-- A machine that refused a page stays marked. -/
theorem kmalloc_refused {h : Heap P} {size : Nat} {r : Nat × Heap P}
    (hyes : h.machine.refused = true) (hr : h.kmalloc size = some r) :
    r.2.machine.refused = true := by
  unfold Heap.kmalloc at hr
  split at hr
  next c hc =>
    obtain ⟨q, hq, rfl⟩ := Option.map_eq_some_iff.mp hr
    exact alloc_refused hyes hq
  next =>
    rw [← Option.some.inj hr]
    exact kmallocPages_refused hyes size

theorem granted_before {h : Heap P} {size : Nat} {r : Nat × Heap P} (call : h.kmalloc size = some r)
    (hr : r.2.machine.refused = false) : h.machine.refused = false := by
  cases hf : h.machine.refused with
  | false => rfl
  | true =>
    rw [kmalloc_refused hf call] at hr
    cases hr

section Kmalloc

variable {h : Heap P} {live : List Allocation} {L : Layout}

/-- The heap holds with the new allocation unless a page was refused. -/
def Served (h : Heap P) (live : List Allocation) (size : Nat) (r : Nat × Heap P) : Prop :=
  r.2.machine.refused = false → ∃ L, Inv Slab.sizes r.2
    (⟨r.1, size, fun i => r.2.machine.Used i ∧ ¬h.machine.Used i⟩ :: live) L

/-- The heap holds with the new allocation and leaves the rest of memory alone. -/
def ServedApart (h : Heap P) (live : List Allocation) (L : Layout) (size : Nat)
    (r : Nat × Heap P) : Prop :=
  r.2.machine.refused = false → ∃ L', Inv Slab.sizes r.2
    (⟨r.1, size, fun i => r.2.machine.Used i ∧ ¬h.machine.Used i⟩ :: live) L' ∧ Grown h L r.2 L'

theorem ServedApart.served {size : Nat} {r : Nat × Heap P} (hs : ServedApart h live L size r) :
    Served h live size r := by
  intro hr
  obtain ⟨L', hinv, -⟩ := hs hr
  exact ⟨L', hinv⟩

theorem Inv.kmalloc_slab (hi : Inv Slab.sizes h live L) {c size : Nat} (hc : c ∈ Slab.sizes)
    (hs : size ≤ c) : ∃ r, Slab.alloc c (chainFuel P) h.machine (h.slabs c) = some r ∧
      ServedApart h live L size (r.1, ⟨r.2, h.slabs⟩) := by
  have hserved := hi.alloc_served hc
  generalize Slab.alloc c (chainFuel P) h.machine (h.slabs c) = result at hserved ⊢
  cases hserved with
  | take a mem room =>
    refine ⟨_, rfl, fun _ => ?_⟩
    obtain ⟨rest, _, hinv⟩ := hi.take hc mem room hs _
    exact ⟨_, hinv, hi.take_grown hc mem rest⟩
  | grow front last whole room =>
    have hsame : (Slab.takeBlock (Slab.grown c h.machine last)
        (Slab.newSlab c h.machine).1).2.refused = (Slab.newSlab c h.machine).2.refused := by
      rw [Slab.takeBlock_refused, Slab.grown_refused]
    refine ⟨_, rfl, fun hnr => ?_⟩
    rw [hsame] at hnr
    rcases Slab.newSlab_spec hi.ok hc with hr | ⟨page, haddr, made⟩
    · rw [hr] at hnr
      cases hnr
    · have hlast : last ∈ L.chain c := whole ▸ List.mem_append_right _ List.mem_cons_self
      have hgrown := hi.grow hc whole haddr made
      have hnew : (Slab.newSlab c h.machine).1 ∈ (L.addSlab page c (h.machine.pageAt page)
          (Slab.blocks c (h.machine.pageAt page))).chain c := by
        simp only [Layout.addSlab, if_true, haddr]
        exact List.mem_append_right _ List.mem_cons_self
      obtain ⟨rest, _, hinv⟩ := hgrown.take hc hnew room hs _
      exact ⟨_, hinv, (hi.grow_grown hc hlast made _).trans (hgrown.take_grown hc hnew rest)⟩

theorem Inv.kmalloc_pages (hi : Inv Slab.sizes h live L) {size : Nat}
    (hs : size + 4095 < 2 ^ 64) (hl : 512 < size) :
    ServedApart h live L size ((kmallocPages h.machine size).1,
      ⟨(kmallocPages h.machine size).2, h.slabs⟩) := by
  have hn : 0 < runPages size := Nat.succ_pos _
  have hcall := Machine.alloc_spec hi.ok hn
  rw [kmallocPages_eq _ hs]
  generalize h.machine.alloc (runPages size) = r at hcall ⊢
  cases hcall with
  | refused pmm ok used => exact fun hr => Bool.noConfusion hr
  | run page pmm ok positive inside unused used =>
    intro _
    have haddr : page * pageSize + h.machine.hhdm + pageSize = h.machine.pageAt (page + 1) := by
      simp only [Machine.pageAt, pageSize]
      omega
    simp only [withHeader, Machine.physToVirt, haddr]
    refine ⟨_, hi.addRun hl rfl ⟨ok, hi.ok.aligned, hi.ok.window, hi.ok.bound⟩ rfl positive inside
      unused used (runHeader_size _ _ _) (fun w hw => runHeader_outside _ hw) fun i => ?_,
      run_grown hn unused used _⟩
    constructor
    · rintro ⟨hu, hnot⟩
      exact ((used i).mp hu).resolve_left hnot
    · intro hin
      exact ⟨(used i).mpr (Or.inr hin), unused i hin.1 hin.2⟩

/-- `kmalloc` returns for every size, and keeps the heap when no page is refused. -/
theorem Inv.kmalloc_apart (hi : Inv Slab.sizes h live L) {size : Nat} (hs : size + 4095 < 2 ^ 64) :
    ∃ r, h.kmalloc size = some r ∧ ServedApart h live L size r := by
  unfold Heap.kmalloc
  cases hc : slabSize size with
  | some c =>
    have hfit : size ≤ c := by simpa using List.find?_some hc
    obtain ⟨r, hr, hserved⟩ := hi.kmalloc_slab (List.mem_of_find?_eq_some hc) hfit
    exact ⟨(r.1, ⟨r.2, h.slabs⟩), by simp only [hr, Option.map_some], hserved⟩
  | none =>
    have hnone := List.find?_eq_none.mp hc 512 (by decide)
    have hl : 512 < size := Nat.lt_of_not_le fun hle => hnone (decide_eq_true hle)
    exact ⟨_, rfl, hi.kmalloc_pages hs hl⟩

theorem Inv.kmalloc (hi : Inv Slab.sizes h live L) {size : Nat} (hs : size + 4095 < 2 ^ 64) :
    ∃ r, h.kmalloc size = some r ∧ Served h live size r := by
  obtain ⟨r, hr, hserved⟩ := hi.kmalloc_apart hs
  exact ⟨r, hr, hserved.served⟩

end Kmalloc

section Kfree

variable {h : Heap P} {live : List Allocation} {L : Layout}

/-- `kfree` finds the slab of a block from the address bits. -/
theorem Inv.kfree_block (hi : Inv Slab.sizes h live L) {c a x : Nat} (hc : c ∈ Slab.sizes)
    (ha : a ∈ L.chain c) (hx : Slab.IsBlock c a x) :
    h.kfree x = (⟨Slab.free h.machine a x, h.slabs⟩, none) := by
  obtain ⟨hpage, hlow⟩ := hx.page hc (hi.dvd hc ha)
  have hsize : (h.machine.mem.load64 a).toNat = c := by
    have h512 := (Slab.sizes_fit c hc).2.1
    rw [(hi.slab c hc a ha).size, BitVec.toNat_ofNat, Nat.mod_eq_of_lt (by omega)]
  simp only [Heap.kfree, if_neg hlow, hpage, hsize, if_pos hc]

/-- `kfree` finds the run of a large allocation from its header. -/
theorem Inv.kfree_run (hi : Inv Slab.sizes h live L) {b : Allocation} {first : Nat}
    (hr : RunState h.machine b first) : h.kfree b.addr =
      (⟨h.machine.free (first * pageSize) (runPages b.size), h.slabs⟩, none) := by
  have hdvd := pageAt_dvd hi.ok (first + 1)
  have hlow : b.addr &&& 0xfff = 0 := by
    rw [hr.addr, show 0xfff = 2 ^ 12 - 1 from rfl, Nat.and_two_pow_sub_one_eq_mod]
    omega
  have hheader : b.addr - pageSize = h.machine.pageAt first := by
    rw [hr.addr, pageAt_succ, pageSize]
    omega
  have hphys : h.machine.virtToPhys (h.machine.pageAt first) = first * pageSize := by
    rw [Machine.virtToPhys, Machine.pageAt, Nat.add_sub_cancel]
  have hsize : (BitVec.ofNat 64 (runPages b.size)).toNat = runPages b.size := by
    rw [BitVec.toNat_ofNat, Nat.mod_eq_of_lt (runPages_lt hi.ok hr.inside)]
  simp only [Heap.kfree, if_pos hlow, hheader, hr.header, hsize, hphys]

theorem Inv.kfree (hi : Inv Slab.sizes h live L) {b : Allocation} (hb : b ∈ live) :
    ∃ L', Inv Slab.sizes (h.kfree b.addr).1 (live.filter fun b' => b'.addr ≠ b.addr) L' := by
  rcases Nat.lt_or_ge 512 b.size with hl | hs
  · obtain ⟨first, hr, ho⟩ := hi.large b hb hl
    obtain ⟨owner, hinv⟩ := hi.giveRun hb hl hr ho
    rw [hi.kfree_run hr]
    exact ⟨_, hinv⟩
  · obtain ⟨c, hc, a, ha, hx, _⟩ := hi.small b hb hs
    rw [hi.kfree_block hc ha hx]
    exact ⟨_, hi.give hb hc ha hx⟩

theorem kfree_refused (h : Heap P) (x : Nat) :
    (h.kfree x).1.machine.refused = h.machine.refused := by
  simp only [Heap.kfree]
  split
  · simp only [Machine.free]
  · split
    · simp only [Slab.free]
    · rfl

end Kfree

section Init

variable {classes : List Nat} {h : Heap P} {L : Layout}

theorem Inv.initSlab (hi : Inv classes h [] L) {c : Nat} (hc : c ∈ Slab.sizes)
    (hnew : c ∉ classes) (hr : (h.initSlab c).machine.refused = false) :
    ∃ L', Inv (c :: classes) (h.initSlab c) [] L' ∧ Grown h L (h.initSlab c) L' := by
  rcases Slab.newSlab_spec hi.ok hc with hyes | ⟨page, haddr, made⟩
  · have hno : (Slab.newSlab c h.machine).2.refused = false := hr
    rw [hyes] at hno
    cases hno
  · refine ⟨_, hi.addSlab hc made (fun c' => List.mem_cons) made.ok rfl (fun i => Iff.rfl)
      (fun w _ _ => rfl) ?_, made_grown made⟩
    intro c' hc'
    simp only [Layout.addSlab, Heap.initSlab]
    split
    next he =>
      rw [hi.absent c hnew, List.nil_append, haddr]
      refine WordList.cons ?_ ?_
      · have hpos := made.positive
        simp only [Machine.pageAt, pageSize]
        omega
      · rw [made.fresh.next]
        exact WordList.nil
    next hne =>
      have hin : c' ∈ classes := (List.mem_cons.mp hc').resolve_left hne
      exact (hi.chains c' hin).congr fun a ha => hi.made_next made hin ha

/-- A heap that holds no page. -/
def Layout.none : Layout := ⟨fun _ => .none, fun _ => [], fun _ => []⟩

theorem Inv.start {m : Machine P} (hm : m.Ok) : Inv [] ⟨m, fun _ => 0⟩ [] Layout.none where
  ok := hm
  sizes c hc := absurd hc List.not_mem_nil
  absent c hc := rfl
  owned i o hio := by cases hio
  chains c hc := absurd hc List.not_mem_nil
  nonempty c hc := absurd hc List.not_mem_nil
  page c hc := absurd hc List.not_mem_nil
  slab c hc := absurd hc List.not_mem_nil
  small b hb := absurd hb List.not_mem_nil
  large b hb := absurd hb List.not_mem_nil
  distinct := List.nodup_nil

theorem initSlabs_refused {h : Heap P} (hr : h.machine.refused = true) (todo : List Nat) :
    (todo.foldl Heap.initSlab h).machine.refused = true := by
  induction todo generalizing h with
  | nil => exact hr
  | cons c todo ih => exact ih (newSlab_refused c hr)

/-- The slabs made one after another. -/
theorem Inv.initSlabs (hi : Inv classes h [] L) {todo : List Nat}
    (hsub : ∀ c ∈ todo, c ∈ Slab.sizes) (hnodup : todo.Nodup) (hnew : ∀ c ∈ todo, c ∉ classes)
    (hr : (todo.foldl Heap.initSlab h).machine.refused = false) :
    ∃ L', Inv (todo.reverse ++ classes) (todo.foldl Heap.initSlab h) [] L' ∧
      Grown h L (todo.foldl Heap.initSlab h) L' := by
  induction todo generalizing classes h L with
  | nil => exact ⟨L, hi, Grown.refl h L⟩
  | cons c todo ih =>
    rw [List.foldl_cons] at hr ⊢
    obtain ⟨hc, hrest⟩ := List.nodup_cons.mp hnodup
    have hfirst : (h.initSlab c).machine.refused = false := by
      cases hf : (h.initSlab c).machine.refused with
      | false => rfl
      | true =>
        rw [initSlabs_refused hf todo] at hr
        exact hr
    obtain ⟨L₁, hi₁, hg₁⟩ := hi.initSlab (hsub c List.mem_cons_self) (hnew c List.mem_cons_self) hfirst
    have hnew₁ : ∀ c' ∈ todo, c' ∉ c :: classes := by
      intro c' hc' hin
      rcases List.mem_cons.mp hin with rfl | hin
      · exact hc hc'
      · exact hnew c' (List.mem_cons_of_mem _ hc') hin
    obtain ⟨L', hi', hg'⟩ :=
      ih hi₁ (fun c' hc' => hsub c' (List.mem_cons_of_mem _ hc')) hrest hnew₁ hr
    rw [List.reverse_cons, List.append_assoc]
    exact ⟨L', hi', hg₁.trans hg'⟩

end Init

end Heap

end UmbraOS
