import UmbraOS.DirectMap
import UmbraOS.SpaceRuns

namespace UmbraOS

namespace Vmm

variable {P : PageSource pageSize} {space : AddressSpace}

/-- No address is mapped when `init` has made the tables of the higher half. -/
theorem initSpace_pte {m : Machine P} (hm : m.Ok) (hr : (initSpace m).2.refused = false)
    (v : Nat) : pte (initSpace m).2 (initSpace m).1.pml4 v = 0#64 := by
  obtain ⟨pmm, page, hok, -, -, -, hnew, heq⟩ := initSpace_zeroed hm hr
  have hempty := zeroed_empty m pmm page
  have ht := Tables.of_empty ((hnew page).mpr (Or.inr rfl)) hempty
  have hindices : ∀ i ∈ List.range' 256 256, i < 512 := by
    intro i hi
    have := (List.mem_range'_1.mp hi).2
    omega
  have hmissing : walk (nextTable (zeroed m pmm page)) ((zeroed m pmm page).pageAt page)
      (tablePath v) = none := by
    rw [tablePath, walk, hempty]
    rfl
  rw [heq, (loop_grows hok ht hindices).pte v]
  exact leafEntry_of_missing hmissing (offset v 12)

theorem virtToPte_refused {m : Machine P} (h : m.refused = true) (root v : Nat) :
    (virtToPte m root v).2.refused = true := by
  have h4 := getNextLevel_refused h root (pml4Offset v)
  rw [virtToPte]
  generalize getNextLevel m root (pml4Offset v) true = r4 at h4 ⊢
  rcases r4 with ⟨_ | pml3, m4⟩
  · exact h4
  have h3 := getNextLevel_refused h4 pml3 (pml3Offset v)
  rw [ifNull_some]
  generalize getNextLevel m4 pml3 (pml3Offset v) true = r3 at h3 ⊢
  rcases r3 with ⟨_ | pml2, m3⟩
  · exact h3
  have h2 := getNextLevel_refused h3 pml2 (pml2Offset v)
  rw [ifNull_some]
  generalize getNextLevel m3 pml2 (pml2Offset v) true = r2 at h2 ⊢
  rcases r2 with ⟨_ | pml1, m2⟩
  · exact h2
  · exact h2

theorem mapAll_refused {m : Machine P} (h : m.refused = true) (maps : List Mapping) :
    (space.mapAll m maps).refused = true := by
  induction maps generalizing m with
  | nil => exact h
  | cons x maps ih =>
    rw [AddressSpace.mapAll_cons]
    apply ih
    have hr := virtToPte_refused h space.pml4 x.virt
    rw [AddressSpace.map]
    generalize virtToPte m space.pml4 x.virt = r at hr ⊢
    rcases r with ⟨_ | t, m'⟩
    · exact hr
    · rw [ifNull_some]
      split
      next => exact hr
      next => exact hr

/-- The entry of a page that was not mapped, after mappings that agree on it. -/
theorem mapAll_agreed {m : Machine P} (hm : m.Ok) (ht : Tables m space.pml4)
    {maps : List Mapping} (hpresent : ∀ x ∈ maps, x.flags &&& ptePresent ≠ 0#64)
    (hr : (space.mapAll m maps).refused = false) {w : Nat} (hw : pte m space.pml4 w = 0#64)
    {x : Mapping} (hx : ∀ y ∈ maps, SamePage y.virt w → y = x) :
    pte (space.mapAll m maps) space.pml4 w =
      if ∃ y ∈ maps, SamePage y.virt w then x.entry else 0#64 := by
  have habsent : ¬pte m space.pml4 w &&& ptePresent ≠ 0#64 := by
    rw [hw]
    decide
  rw [mapAll_pte hm ht hpresent hr w, if_neg habsent, hw]
  cases hfind : maps.find? fun y => SamePage y.virt w with
  | none =>
    have hno : ¬∃ y ∈ maps, SamePage y.virt w := fun ⟨y, hy, hs⟩ =>
      List.find?_eq_none.mp hfind y hy (decide_eq_true hs)
    rw [if_neg hno]
  | some y =>
    have hs : SamePage y.virt w := by simpa using List.find?_some hfind
    have hy := List.mem_of_find?_eq_some hfind
    rw [if_pos ⟨y, hy, hs⟩, hx y hy hs]

variable {image : KernelImage} {memmap : List MemmapEntry}

/-- The kernel's space translates the address of a page in the direct map to the page. -/
def TranslatesPage (hhdm : Nat) (r : AddressSpace × Machine P) (page : Nat) : Prop :=
  (r.1.virtToPhys r.2 (u64 (page * pageSize + hhdm))).1 = BitVec.ofNat 64 (page * pageSize)

theorem translation_direct {hhdm page : Nat} (h : page < 2 ^ 40) :
    translation (directMapping hhdm page).entry = BitVec.ofNat 64 (page * pageSize) := by
  have hflags : directFlags &&& ptePresent ≠ 0#64 := by decide
  have haddr : pteGetAddr directFlags = 0#64 := by decide
  rw [translation, Mapping.entry, directMapping, if_neg (present_or hflags)]
  exact pteGetAddr_entry h haddr

theorem translation_zero (page : Nat) :
    translation 0#64 ≠ BitVec.ofNat 64 (page * pageSize) := by
  intro he
  have hn := congrArg BitVec.toNat he
  rw [BitVec.toNat_ofNat] at hn
  simp only [translation, pageSize, BitVec.zero_and, if_true, BitVec.toNat_allOnes] at hn
  omega

/-- After `init` exactly the pages of the direct map are translated to themselves. -/
theorem init_translates_iff {m : Machine P} (hm : m.Ok) (hb : Booted m.hhdm image memmap)
    (hr : (init image m memmap).2.refused = false) {page : Nat}
    (hw : InWindow m.hhdm image page) :
    TranslatesPage m.hhdm (init image m memmap) page ↔ page ∈ directPages memmap := by
  have hbound : page < 2 ^ 40 := by
    have htop := hb.top
    have hhigh := hb.higher
    simp only [InWindow, pageSize] at hw
    omega
  rw [init_eq] at hr ⊢
  have hstart : (initSpace m).2.refused = false := by
    cases hfirst : (initSpace m).2.refused with
    | false => rfl
    | true =>
      rw [mapAll_refused hfirst] at hr
      cases hr
  have hs := initSpace_started hm hstart
  have hzero := initSpace_pte hm hstart
  generalize initSpace m = r at hr hs hzero ⊢
  have hk := mapAll_keeps hs.ok hs.tables (initMappings image m.hhdm memmap)
  have hpte := mapAll_agreed hs.ok hs.tables initMappings_present hr
    (hzero (u64 (page * pageSize + m.hhdm))) fun y hy hsame => (samePage_direct hb hw hy hsame).1
  have hmapped : (∃ y ∈ initMappings image m.hhdm memmap,
      SamePage y.virt (u64 (page * pageSize + m.hhdm))) ↔ page ∈ directPages memmap := by
    constructor
    · intro h
      obtain ⟨y, hy, hsame⟩ := h
      exact (samePage_direct hb hw hy hsame).2
    · intro h
      exact ⟨directMapping m.hhdm page,
        List.mem_append_right _ (List.mem_map_of_mem h), rfl⟩
  rw [TranslatesPage, virtToPhys_eq hk.ok hk.tables, hpte]
  by_cases hin : page ∈ directPages memmap
  · rw [if_pos (hmapped.mpr hin)]
    exact iff_of_true (translation_direct hbound) hin
  · rw [if_neg fun h => hin (hmapped.mp h)]
    exact iff_of_false (translation_zero page) hin

end Vmm

end UmbraOS
