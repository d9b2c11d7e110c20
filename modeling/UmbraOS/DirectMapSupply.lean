import UmbraOS.DirectMapBoot
import Mathlib.Order.Interval.Finset.Nat

namespace UmbraOS

namespace Supply

open Classical in
/-- There is a page for each of these tables that is missing. -/
def Enough (s : Supply) (paths : Finset (List (Fin 512))) : Prop :=
  (paths.filter fun xs => xs ∉ s.tables).card ≤ s.free

theorem Enough.of_card {s : Supply} {paths : Finset (List (Fin 512))} (h : paths.card ≤ s.free) :
    s.Enough paths := by
  classical
  exact Nat.le_trans (Finset.card_filter_le _ _) h

/-- A table that was provided for is there when it was asked for, and its page is gone. -/
theorem Enough.take {s : Supply} {paths : Finset (List (Fin 512))} (h : s.Enough paths)
    {xs : List (Fin 512)} (hx : xs ∈ paths) :
    (s.demand xs).Enough paths ∧ xs ∈ (s.demand xs).tables := by
  classical
  by_cases hin : xs ∈ s.tables
  · rw [demand_present hin]
    exact ⟨h, hin⟩
  · have hmissing : xs ∈ paths.filter fun ys => ys ∉ s.tables :=
      Finset.mem_filter.mpr ⟨hx, hin⟩
    have hpos := Finset.card_pos.mpr ⟨xs, hmissing⟩
    have hcount : (paths.filter fun ys => ys ∉ s.tables).card ≤ s.free := by
      unfold Enough at h
      convert h
    rw [demand_taken hin (by omega)]
    have hrest : (paths.filter fun ys => ys ∉ insert xs s.tables) =
        (paths.filter fun ys => ys ∉ s.tables).erase xs := by
      ext ys
      rw [Finset.mem_erase, Finset.mem_filter, Finset.mem_filter, Set.mem_insert_iff, not_or]
      tauto
    have hcard := Finset.card_erase_of_mem hmissing
    refine ⟨?_, Set.mem_insert xs s.tables⟩
    unfold Enough
    rw [← hrest] at hcard
    have hle : (paths.filter fun ys => ys ∉ insert xs s.tables).card ≤ s.free - 1 := by omega
    convert hle

theorem Enough.takeAll {s : Supply} {paths : Finset (List (Fin 512))} (h : s.Enough paths)
    {asked : List (List (Fin 512))} (ha : ∀ xs ∈ asked, xs ∈ paths) :
    (asked.foldl demand s).Enough paths ∧ ∀ xs ∈ asked, xs ∈ (asked.foldl demand s).tables := by
  induction asked generalizing s with
  | nil => exact ⟨h, fun _ hx => absurd hx List.not_mem_nil⟩
  | cons xs asked ih =>
    obtain ⟨hnext, hthere⟩ := h.take (ha xs List.mem_cons_self)
    obtain ⟨hlast, hall⟩ := ih hnext fun ys hy => ha ys (List.mem_cons_of_mem xs hy)
    refine ⟨hlast, fun ys hy => ?_⟩
    rcases List.mem_cons.mp hy with rfl | hy
    · exact subset_foldl _ asked hthere
    · exact hall ys hy

end Supply

namespace Vmm

variable {P : PageSource pageSize} {space : AddressSpace}

/-- A step that finds its table was refused nothing. -/
theorem getNextLevel_granted {m : Machine P} {t i : Nat}
    (h : (getNextLevel m t i true).1 ≠ none) :
    (getNextLevel m t i true).2.refused = m.refused := by
  by_cases hp : entry m t i &&& ptePresent ≠ 0#64
  · rw [getNextLevel, if_pos hp]
  · rw [getNextLevel_absent hp] at h ⊢
    have hcalloc : (m.calloc 1).1 ≠ 0 → (m.calloc 1).2.refused = m.refused := by
      intro hne
      simp only [Machine.calloc, Machine.alloc, if_neg Nat.one_ne_zero] at hne ⊢
      split
      next hpage =>
        have hpage' : ((P.alloc 1 m.pmm).1 == 0) = false := beq_eq_false_iff_ne.mpr hpage
        simp only [hpage', Bool.or_false]
      next hpage =>
        rw [if_neg hpage] at hne
        exact absurd rfl hne
    generalize m.calloc 1 = r at h hcalloc ⊢
    rw [linkTable] at h ⊢
    split
    next hz =>
      rw [if_pos hz] at h
      exact absurd rfl h
    next hz => exact hcalloc hz

theorem virtToPte_granted {m : Machine P} {root v : Nat} (h : (virtToPte m root v).1 ≠ none) :
    (virtToPte m root v).2.refused = m.refused := by
  have h4 : _ → _ := getNextLevel_granted (m := m) (t := root) (i := pml4Offset v)
  rw [virtToPte] at h ⊢
  generalize getNextLevel m root (pml4Offset v) true = r4 at h h4 ⊢
  rcases r4 with ⟨_ | pml3, m4⟩
  · exact absurd rfl h
  have h3 : _ → _ := getNextLevel_granted (m := m4) (t := pml3) (i := pml3Offset v)
  rw [ifNull_some] at h ⊢
  generalize getNextLevel m4 pml3 (pml3Offset v) true = r3 at h h3 ⊢
  rcases r3 with ⟨_ | pml2, m3⟩
  · exact absurd rfl h
  have h2 : _ → _ := getNextLevel_granted (m := m3) (t := pml2) (i := pml2Offset v)
  rw [ifNull_some] at h ⊢
  generalize getNextLevel m3 pml2 (pml2Offset v) true = r2 at h h2 ⊢
  rcases r2 with ⟨_ | pml1, m2⟩
  · exact absurd rfl h
  · have hfirst := h4 (Option.some_ne_none pml3)
    have hsecond := h3 (Option.some_ne_none pml2)
    have hthird := h2 (Option.some_ne_none pml1)
    exact (hthird.trans hsecond).trans hfirst

/-- A mapping whose tables are all provided for is not refused. -/
theorem map_granted (hP : P.Complete) {m : Machine P} (hm : m.Ok) (ht : Tables m space.pml4)
    {paths : Finset (List (Fin 512))} (he : (supply m space.pml4).Enough paths) {v : Nat}
    (hv : ∀ xs ∈ tablesOf v, xs ∈ paths) (p : Nat) (flags : BitVec 64) :
    (space.map m v p flags).refused = m.refused ∧
      (supply (space.map m v p flags) space.pml4).Enough paths := by
  obtain ⟨hsupply, hfound, -⟩ := map_supply hP hm ht v p flags
  obtain ⟨henough, hthere⟩ := he.takeAll hv
  rw [hsupply]
  refine ⟨?_, henough⟩
  have hpte := hfound.mpr (hthere (tablePath v) (by simp [tablesOf]))
  have hr := virtToPte_granted hpte
  rw [AddressSpace.map]
  generalize virtToPte m space.pml4 v = r at hpte hr ⊢
  rcases r with ⟨_ | t, m'⟩
  · exact absurd rfl hpte
  · rw [ifNull_some]
    split
    next => exact hr
    next => exact hr

theorem mapAll_granted (hP : P.Complete) {m : Machine P} (hm : m.Ok) (ht : Tables m space.pml4)
    {paths : Finset (List (Fin 512))} (he : (supply m space.pml4).Enough paths)
    {maps : List Mapping} (hx : ∀ x ∈ maps, ∀ xs ∈ tablesOf x.virt, xs ∈ paths) :
    (space.mapAll m maps).refused = m.refused := by
  induction maps generalizing m with
  | nil => rfl
  | cons x maps ih =>
    obtain ⟨hk, -, -⟩ := map_keeps_pte hm ht x.virt x.phys x.flags
    obtain ⟨hr, he'⟩ := map_granted hP hm ht he (hx x List.mem_cons_self) x.phys x.flags
    rw [AddressSpace.mapAll_cons]
    exact (ih hk.ok hk.tables he' fun y hy => hx y (List.mem_cons_of_mem x hy)).trans hr

/-- `init` is refused nothing if there are pages for its top-level table, for the 256 tables of
the higher half and for the tables on the way to all addresses that it maps. -/
theorem init_granted (hP : P.Complete) {m : Machine P} (hm : m.Ok) (hr : m.refused = false)
    {image : KernelImage} {memmap : List MemmapEntry} (paths : Finset (List (Fin 512)))
    (hf : paths.card + 257 ≤ freePages m)
    (hx : ∀ x ∈ initMappings image m.hhdm memmap, ∀ xs ∈ tablesOf x.virt, xs ∈ paths) :
    (init image m memmap).2.refused = false := by
  obtain ⟨hstart, hfree⟩ := initSpace_free hP hm hr (by omega)
  have hs := initSpace_started hm hstart
  rw [init_eq]
  generalize initSpace m = r at hstart hfree hs ⊢
  have he : (supply r.2 r.1.pml4).Enough paths := by
    apply Supply.Enough.of_card
    show paths.card ≤ freePages r.2
    omega
  exact (mapAll_granted hP hs.ok hs.tables he hx).trans hstart

end Vmm

end UmbraOS
