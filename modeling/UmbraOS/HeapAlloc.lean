import Mathlib.Data.List.Perm.Subperm
import UmbraOS.HeapGrowth

namespace UmbraOS

namespace Slab

variable {P : PageSource pageSize}

/-- The machine after a full last slab got its successor. -/
def grown (c : Nat) (m : Machine P) (last : Nat) : Machine P :=
  ⟨(newSlab c m).2.mem.store64 (last + next) (BitVec.ofNat 64 (newSlab c m).1),
    (newSlab c m).2.pmm, (newSlab c m).2.hhdm, (newSlab c m).2.refused⟩

theorem growChain_full {c last : Nat} {m : Machine P} (h : m.mem.load64 (last + next) = 0#64) :
    growChain c m last = grown c m last := by
  rw [growChain, if_pos h]
  rfl

theorem growChain_linked {c a : Nat} {m : Machine P} (h : m.mem.load64 (a + next) ≠ 0#64) :
    growChain c m a = m := by
  rw [growChain, if_neg h]

theorem takeBlock_refused (m : Machine P) (slab : Nat) :
    (takeBlock m slab).2.refused = m.refused := by
  simp only [takeBlock]

theorem grown_refused (c : Nat) (m : Machine P) (last : Nat) :
    (grown c m last).refused = (newSlab c m).2.refused := by
  simp only [grown]

/-- How an allocation from a chain ends: in a slab with a free block, or in a new slab behind
the last one. -/
inductive Served (c : Nat) (m : Machine P) (slabs : List Nat) : Option (Nat × Machine P) → Prop
  | take (a : Nat) (mem : a ∈ slabs) (room : m.mem.load64 (a + freeBlock) ≠ 0#64) :
      Served c m slabs (some (takeBlock m a))
  | grow (front : List Nat) (last : Nat) (whole : slabs = front ++ [last])
      (room : (grown c m last).mem.load64 ((newSlab c m).1 + freeBlock) ≠ 0#64) :
      Served c m slabs (some (takeBlock (grown c m last) (newSlab c m).1))

theorem Served.cons {c a : Nat} {m : Machine P} {slabs : List Nat}
    {r : Option (Nat × Machine P)} (h : Served c m slabs r) : Served c m (a :: slabs) r := by
  cases h with
  | take b mem room => exact Served.take b (List.mem_cons_of_mem _ mem) room
  | grow front last whole room => exact Served.grow (a :: front) last (by rw [whole]; rfl) room

/-- The page of a new slab, also when the null pointer is taken for one. -/
theorem newSlab_fresh {m : Machine P} {c : Nat} (hm : m.Ok) (hc : c ∈ sizes)
    (hb : 0 < P.bound) : ∃ page, page < P.bound ∧ (newSlab c m).1 = m.pageAt page ∧
      Fresh c (m.pageAt page) (newSlab c m).2.mem := by
  have hcall := Machine.calloc_spec hm Nat.one_pos
  rw [newSlab_eq]
  generalize m.calloc 1 = r at hcall ⊢
  cases hcall with
  | refused pmm ok used =>
    have hz : m.pageAt 0 = (0 + m.hhdm) := by rw [Machine.pageAt, Nat.zero_mul]
    exact ⟨0, hb, hz.symm, hz ▸ fresh_spec c _ _ hc⟩
  | run page pmm ok positive inside unused used =>
    exact ⟨page, by omega, rfl, fresh_spec c _ _ hc⟩

/-- A new slab has a free block. -/
theorem grown_room {m : Machine P} {c : Nat} (last : Nat) (hm : m.Ok) (hc : c ∈ sizes)
    (hb : 0 < P.bound) (hl : 4096 ∣ last) :
    (grown c m last).mem.load64 (last + next) = BitVec.ofNat 64 (newSlab c m).1 ∧
      (BitVec.ofNat 64 (newSlab c m).1).toNat = (newSlab c m).1 ∧
      (grown c m last).mem.load64 ((newSlab c m).1 + freeBlock) ≠ 0#64 := by
  obtain ⟨page, hpage, haddr, hfresh⟩ := newSlab_fresh hm hc hb
  have hend := Heap.pageAt_end hm hpage
  have hdvd := Heap.pageAt_dvd hm page
  have hin := block_inside (i := 0) (m.pageAt page) hc (sizes_fit c hc).2.2.2.1
  have h8 := (sizes_fit c hc).1
  refine ⟨Memory.load64_store64 _ _ _, ?_, ?_⟩
  · rw [haddr, BitVec.toNat_ofNat, Nat.mod_eq_of_lt (by omega)]
  · rw [grown, haddr]
    have hkeep := Memory.load64_store64_aligned (newSlab c m).2.mem
      (BitVec.ofNat 64 (m.pageAt page)) (a := last + next) (b := m.pageAt page + freeBlock)
      (by simp only [next]; omega) (by simp only [freeBlock]; omega)
      (by simp only [next, freeBlock]; omega)
    rw [hkeep, hfresh.freeBlock]
    intro hz
    have hn := congrArg BitVec.toNat hz
    rw [BitVec.toNat_ofNat, Nat.mod_eq_of_lt (by omega)] at hn
    simp only [BitVec.toNat_ofNat, Nat.zero_mod] at hn
    omega

/-- The recursion follows the chain to the first slab with a free block. -/
theorem alloc_served {m : Machine P} {c : Nat} (hm : m.Ok) (hc : c ∈ sizes)
    (hb : 0 < P.bound) {slabs : List Nat} {a fuel : Nat} (hw : WordList m.mem next a slabs)
    (ha : a ≠ 0) (hd : ∀ x ∈ slabs, 4096 ∣ x) (hf : slabs.length < fuel) :
    Served c m slabs (alloc c fuel m a) := by
  induction slabs generalizing a fuel with
  | nil => exact absurd hw ha
  | cons x rest ih =>
    obtain ⟨rfl, _, hrest⟩ := hw
    rw [List.length_cons] at hf
    obtain ⟨k, rfl⟩ : ∃ k, fuel = k + 1 := ⟨fuel - 1, by omega⟩
    rw [alloc]
    split
    next hfull =>
      by_cases hnext : m.mem.load64 (a + next) = 0#64
      · rw [hnext] at hrest
        have hnil : rest = [] := WordList.eq_nil hrest
        subst hnil
        obtain ⟨j, rfl⟩ : ∃ j, k = j + 1 := ⟨k - 1, by simp only [List.length_nil] at hf; omega⟩
        obtain ⟨hlink, hto, hroom⟩ :=
          grown_room a hm hc hb (hd a List.mem_cons_self)
        simp only [growChain_full hnext]
        rw [hlink, hto, alloc, if_neg hroom]
        exact Served.grow [] a rfl hroom
      · simp only [growChain_linked hnext]
        refine (ih hrest ?_ (fun y hy => hd y (List.mem_cons_of_mem _ hy)) (by omega)).cons
        intro hz
        exact hnext (BitVec.eq_of_toNat_eq hz)
    next hroom => exact Served.take a List.mem_cons_self hroom

end Slab

namespace Heap

variable {P : PageSource pageSize} {classes : List Nat} {h : Heap P} {live : List Allocation}
  {L : Layout}

/-- A chain is shorter than the fuel. -/
theorem Inv.chain_short (hi : Inv classes h live L) {c : Nat} (hc : c ∈ classes) :
    (L.chain c).length < chainFuel P := by
  have hnodup := (hi.chains c hc).nodup
  have hsub : L.chain c ⊆ (List.range P.bound).map h.machine.pageAt := by
    intro a ha
    obtain ⟨i, rfl, hbound, _⟩ := hi.page c hc a ha
    exact List.mem_map_of_mem (List.mem_range.mpr hbound)
  have hlen := (hnodup.subperm hsub).length_le
  rw [List.length_map, List.length_range] at hlen
  rw [chainFuel]
  omega

theorem Inv.bound_pos (hi : Inv classes h live L) {c : Nat} (hc : c ∈ classes) :
    0 < P.bound := by
  obtain ⟨a, ha⟩ := List.exists_mem_of_ne_nil _ (hi.nonempty c hc)
  obtain ⟨i, _, hbound, _⟩ := hi.page c hc a ha
  omega

theorem Inv.alloc_served (hi : Inv classes h live L) {c : Nat} (hc : c ∈ classes) :
    Slab.Served c h.machine (L.chain c)
      (Slab.alloc c (chainFuel P) h.machine (h.slabs c)) := by
  refine Slab.alloc_served hi.ok (hi.sizes c hc) (hi.bound_pos hc) (hi.chains c hc) ?_
    (fun a ha => hi.dvd hc ha) (hi.chain_short hc)
  intro hz
  have hw := hi.chains c hc
  rw [hz] at hw
  exact hi.nonempty c hc hw.eq_nil

/-- The new slab is linked behind the last one. -/
theorem Inv.grow (hi : Inv classes h live L) {c page last : Nat} {front : List Nat}
    (hc : c ∈ classes) (hchain : L.chain c = front ++ [last])
    (haddr : (Slab.newSlab c h.machine).1 = h.machine.pageAt page)
    (made : Slab.Made c h.machine page (Slab.newSlab c h.machine).2) :
    Inv classes ⟨Slab.grown c h.machine last, h.slabs⟩ live
      (L.addSlab page c (h.machine.pageAt page) (Slab.blocks c (h.machine.pageAt page))) := by
  have hmemlast : last ∈ L.chain c := hchain ▸ List.mem_append_right _ List.mem_cons_self
  have hlast := hi.dvd hc hmemlast
  have hpdvd := pageAt_dvd hi.ok page
  have hend := pageAt_end hi.ok made.inside
  have hmem : ∀ w, 8 ∣ w → w ≠ last + Slab.next →
      (Slab.grown c h.machine last).mem.load64 w = (Slab.newSlab c h.machine).2.mem.load64 w := by
    intro w hw hne
    refine Memory.load64_store64_aligned _ _ ?_ hw hne
    simp only [Slab.next]
    omega
  -- links of the slabs that stay where they are
  have hlink : ∀ c' ∈ classes, ∀ a ∈ L.chain c', a ≠ last →
      (Slab.grown c h.machine last).mem.load64 (a + Slab.next) =
        h.machine.mem.load64 (a + Slab.next) := by
    intro c' hc' a ha hne
    have hda := hi.dvd hc' ha
    rw [hmem _ (by simp only [Slab.next]; omega) (by omega)]
    exact hi.made_next made hc' ha
  refine hi.addSlab (hi.sizes c hc) made (fun c' => ⟨Or.inr, fun hor => ?_⟩) ?_ rfl
    (fun i => Iff.rfl) ?_ ?_
  · rcases hor with rfl | hin
    · exact hc
    · exact hin
  · exact ⟨made.ok.pmm, made.ok.aligned, made.ok.window, made.ok.bound⟩
  · intro w hw hmod
    refine hmem w hw ?_
    simp only [Slab.next]
    omega
  · intro c' hc'
    simp only [Layout.addSlab]
    split
    next he =>
      subst he
      have hnodup := (hi.chains c' hc').nodup
      have hw := hi.chains c' hc'
      rw [hchain, List.nodup_append] at hnodup
      rw [hchain] at hw ⊢
      rw [List.append_assoc, List.singleton_append]
      refine hw.append ?_ ?_
      · obtain ⟨hto, hword, _⟩ := Slab.grown_room last hi.ok (hi.sizes c' hc') (hi.bound_pos hc')
          hlast
        have hnull : (Slab.grown c' h.machine last).mem.load64 (h.machine.pageAt page + Slab.next) =
            0#64 := by
          rw [hmem _ (by simp only [Slab.next]; omega) ?_, made.fresh.next]
          intro he
          have hpl : h.machine.pageAt page = last := by omega
          obtain ⟨i, hli, _, hio⟩ := hi.page c' hc' last hmemlast
          exact hi.owned_ne hio made.unused (pageAt_inj (hpl.trans hli)).symm
        rw [hto, hword, haddr]
        refine WordList.cons ?_ ?_
        · have hpos := made.positive
          simp only [Machine.pageAt, pageSize]
          omega
        · rw [hnull]
          exact WordList.nil
      · intro y hy
        exact hlink c' hc' y (hchain ▸ List.mem_append_left _ hy)
          (hnodup.2.2 y hy last List.mem_cons_self)
    next hne =>
      refine (hi.chains c' hc').congr fun a ha => hlink c' hc' a ha ?_
      rintro rfl
      exact hne (hi.chain_unique hc' hc ha hmemlast)

end Heap

end UmbraOS
