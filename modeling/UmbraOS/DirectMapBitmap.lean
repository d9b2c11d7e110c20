import UmbraOS.DirectMapSupply

namespace UmbraOS

namespace Vmm

variable {P : PageSource pageSize} {image : KernelImage} {memmap : List MemmapEntry}

theorem bitmapSize_aligned (memmap : List MemmapEntry) : pageSize ∣ Pmm.bitmapSize memmap :=
  Nat.dvd_mul_left pageSize _

variable {hhdm size : Nat} {before after : List MemmapEntry} {e : MemmapEntry}

/-- The promises still hold when the bitmap has been cut off its entry. -/
theorem Booted.reserve (hb : Booted hhdm image memmap)
    (hp : Pmm.Place size memmap before e after) (hs : pageSize ∣ size) :
    Booted hhdm image (before ++ e.reserve size :: after) := by
  have he : e ∈ memmap := by
    rw [hp.split]
    exact List.mem_append_right before List.mem_cons_self
  have hregion := hb.regions e he
  have hmem : ∀ other ∈ before ++ e.reserve size :: after,
      other ∈ memmap ∨ other = e.reserve size := by
    intro other ho
    rw [hp.split, List.mem_append, List.mem_cons]
    rw [List.mem_append, List.mem_cons] at ho
    tauto
  have hbase : u64 (e.base + size) = e.base + size := by
    have htop := hb.top
    have hfits := hp.fits.2
    exact u64_of_lt (by omega)
  refine ⟨hb.aligned, hb.higher, hb.imageAligned, hb.top, hb.sections, hb.devices, ?_, ?_⟩
  · intro other ho
    rcases hmem other ho with ho | rfl
    · exact hb.regions other ho
    · have hfits := hp.fits.2
      simp only [MemmapEntry.reserve, hbase]
      omega
  · intro other ho husable
    rcases hmem other ho with ho | rfl
    · exact hb.usable other ho husable
    · have haligned := hb.usable e he husable
      refine ⟨?_, Nat.dvd_sub haligned.length hs⟩
      simp only [MemmapEntry.reserve, hbase]
      exact Nat.dvd_add haligned.base hs

/-- Every page of the bitmap that lies at 4 GiB or above belongs to another entry of the map
as well. -/
def BitmapShared (memmap : List MemmapEntry) : Prop :=
  ∀ before e after, Pmm.Place (Pmm.bitmapSize memmap) memmap before e after →
    ∀ page, fourGiB ≤ page * pageSize → e.InFront (Pmm.bitmapSize memmap) page →
      ∃ other ∈ before ++ after, other.Covers page

/-- The pages that are in the direct map when the bitmap was cut off an entry. -/
theorem mem_directPages_reserve (hb : Booted hhdm image memmap)
    (hp : Pmm.Place size memmap before e after) (hs : pageSize ∣ size) {page : Nat}
    (hhigh : fourGiB ≤ page * pageSize) :
    page ∈ directPages (before ++ e.reserve size :: after) ↔
      (∃ other ∈ before ++ after, other.Covers page) ∨ e.Covers page ∧ ¬e.InFront size page := by
  have he : e ∈ memmap := by
    rw [hp.split]
    exact List.mem_append_right before List.mem_cons_self
  have hregion := hb.regions e he
  have htop := hb.top
  have hcut : (e.reserve size).Covers page ↔ e.Covers page ∧ ¬e.InFront size page :=
    MemmapEntry.reserve_covers (hb.usable e he hp.fits.1) hs hp.fits.2 (by omega)
  rw [mem_directPages (hb.reserve hp hs) page, ← hcut]
  simp only [List.mem_append, List.mem_cons]
  constructor
  · intro h
    rcases h with ⟨-, hlow⟩ | ⟨-, other, ho, hcovers⟩
    · omega
    · rcases ho with ho | rfl | ho
      · exact Or.inl ⟨other, Or.inl ho, hcovers⟩
      · exact Or.inr hcovers
      · exact Or.inl ⟨other, Or.inr ho, hcovers⟩
  · intro h
    refine Or.inr ⟨hhigh, ?_⟩
    rcases h with ⟨other, ho, hcovers⟩ | hcovers
    · exact ⟨other, ho.imp_right Or.inr, hcovers⟩
    · exact ⟨e.reserve size, Or.inr (Or.inl rfl), hcovers⟩

/-- After the two `init` functions the kernel's space translates every page of the memory map
in the direct map exactly if no page of the bitmap from 4 GiB on is only in the entry that
the bitmap was cut off. -/
theorem direct_map_iff {m : Machine P} (hm : m.Ok) (hb : Booted m.hhdm image memmap)
    {mem : Memory} {pmm : Pmm} {memmap' : List MemmapEntry}
    (hi : Pmm.init mem m.hhdm memmap = some (pmm, memmap'))
    (hr : (init image m memmap').2.refused = false) :
    (∀ e ∈ memmap, ∀ page, 0 < page → e.Holds page →
        TranslatesPage m.hhdm (init image m memmap') page) ↔ BitmapShared memmap := by
  have hwindow : ∀ e ∈ memmap, ∀ page, e.Holds page → InWindow m.hhdm image page :=
    fun e he page h => covers_inWindow hb he (MemmapEntry.covers_of_holds h)
  rcases Pmm.init_memmap hi with ⟨rfl, hnone⟩ | ⟨before, e, after, hp, rfl⟩
  · refine iff_of_true (fun e he page hpos hheld => ?_) fun before e after hp => ?_
    · rw [init_translates_iff hm hb hr (hwindow e he page hheld), mem_directPages hb]
      rcases Nat.lt_or_ge (page * pageSize) fourGiB with hlow | hhigh
      · exact Or.inl ⟨hpos, hlow⟩
      · exact Or.inr ⟨hhigh, e, he, MemmapEntry.covers_of_holds hheld⟩
    · refine absurd hp.fits (hnone e ?_)
      rw [hp.split]
      exact List.mem_append_right before List.mem_cons_self
  have hs := bitmapSize_aligned memmap
  have hb' := hb.reserve hp hs
  have he : e ∈ memmap := by
    rw [hp.split]
    exact List.mem_append_right before List.mem_cons_self
  constructor
  · intro hall before' e' after' hp' page hhigh hfront
    obtain ⟨rfl, rfl, rfl⟩ := hp.unique hp'
    have hheld := MemmapEntry.holds_of_inFront hp.fits.2 hfront
    have hpos : 0 < page := by
      simp only [fourGiB, pageSize] at hhigh
      omega
    have hmapped := (init_translates_iff hm hb' hr (hwindow _ he page hheld)).mp
      (hall _ he page hpos hheld)
    exact ((mem_directPages_reserve hb hp hs hhigh).mp hmapped).resolve_right
      fun h => h.2 hfront
  · intro hshared other ho page hpos hheld
    rw [init_translates_iff hm hb' hr (hwindow other ho page hheld)]
    rcases Nat.lt_or_ge (page * pageSize) fourGiB with hlow | hhigh
    · exact (mem_directPages hb' page).mpr (Or.inl ⟨hpos, hlow⟩)
    · rw [mem_directPages_reserve hb hp hs hhigh]
      have hcovers := MemmapEntry.covers_of_holds hheld
      by_cases hfront : e.InFront (Pmm.bitmapSize memmap) page
      · exact Or.inl (hshared before e after hp page hhigh hfront)
      · rw [hp.split, List.mem_append, List.mem_cons] at ho
        rcases ho with ho | rfl | ho
        · exact Or.inl ⟨other, List.mem_append_left after ho, hcovers⟩
        · exact Or.inr ⟨hcovers, hfront⟩
        · exact Or.inl ⟨other, List.mem_append_right before ho, hcovers⟩

/-- A small usable region below 4 GiB and 256 MiB from there on. -/
def splitMap : List MemmapEntry :=
  [⟨0x1000, 0x10000, .usable⟩, ⟨0x100000000, 0x10000000, .usable⟩]

/-- The map when the bitmap of 34 pages has been placed. -/
def splitMapCut : List MemmapEntry :=
  [⟨0x1000, 0x10000, .usable⟩, ⟨0x100022000, 0xffde000, .usable⟩]

def splitImage : KernelImage where
  textStart := 0xffffffff80000000
  textEnd := 0xffffffff80001000
  rodataStart := 0xffffffff80002000
  rodataEnd := 0xffffffff80003000
  dataStart := 0xffffffff80004000
  dataEnd := 0xffffffff80005000
  virtualBase := 0xffffffff80000000
  physicalBase := 0x200000

def splitHhdm : Nat := 0xffff800000000000

/-- The manager that `Pmm::init` makes of the map in zeroed memory. -/
def splitPmm : Pmm where
  bitmap := splitMapCut.foldl Pmm.freeEntry
    ⟨fun i => Memory.fill (fun _ => 0#8) (0x100000000 + splitHhdm) 0x22000 0xff#8
      (0x100000000 + splitHhdm + i), 0x22000⟩
  lastPageIdx := 0
  touched := []

theorem splitMap_size : Pmm.bitmapSize splitMap = 0x22000 := by decide

theorem splitMap_placed :
    Pmm.placeBitmap 0x22000 splitMap = some (0x100000000, splitMapCut) := by
  have hlow : ¬MemmapEntry.Fits 0x22000 ⟨0x1000, 0x10000, .usable⟩ := by decide
  have hhigh : MemmapEntry.Fits 0x22000 ⟨0x100000000, 0x10000000, .usable⟩ := by decide
  rw [splitMap, Pmm.placeBitmap, if_neg hlow, Pmm.placeBitmap, if_pos hhigh]
  rfl

theorem splitMap_init :
    Pmm.init (fun _ => 0#8) splitHhdm splitMap = some (splitPmm, splitMapCut) := by
  rw [Pmm.init, splitMap_size]
  simp only [splitMap_placed]
  rfl

theorem splitPmm_get {i : Nat} (h : i < 0x110000) :
    splitPmm.bitmap.get i = true ↔ ∀ e ∈ splitMapCut, ¬Pmm.Freed e i := by
  have hfits : MemmapEntry.Fits (Pmm.bitmapSize splitMap) ⟨0x100000000, 0x10000000, .usable⟩ := by
    rw [splitMap_size]
    decide
  have hspec := Pmm.init_spec splitMap_init (List.mem_cons_of_mem _ List.mem_cons_self) hfits
  rw [splitMap_size] at hspec
  exact hspec.2.2 i (by omega)

theorem splitLimit : u64 (0x22000 * pageSize) ≤ 2 ^ 52 := by decide

def splitMachine : Machine (Pmm.source 0x22000 splitLimit) :=
  ⟨fun _ => 0#8, splitPmm, splitHhdm, false⟩

theorem splitMachine_ok : splitMachine.Ok where
  pmm := by
    have hfits : MemmapEntry.Fits 0x22000 ⟨0x100000000, 0x10000000, .usable⟩ := by decide
    have hm := Pmm.init_managed splitMap_init (List.mem_cons_of_mem _ List.mem_cons_self)
      (splitMap_size ▸ hfits) (by rw [splitMap_size]; decide) (by decide)
    rw [splitMap_size] at hm
    exact hm
  aligned := by decide
  window := by decide
  bound := by decide

theorem splitMap_booted : Booted splitHhdm splitImage splitMap where
  aligned := by decide
  higher := by decide
  imageAligned := by decide
  top := by decide
  sections := by decide
  devices := by decide
  regions := by decide
  usable e he _ := by
    simp only [splitMap, List.mem_cons, List.not_mem_nil, or_false] at he
    rcases he with rfl | rfl
    · exact ⟨by decide, by decide⟩
    · exact ⟨by decide, by decide⟩

theorem splitMapCut_booted : Booted splitHhdm splitImage splitMapCut := by
  have hplace : Pmm.Place 0x22000 splitMap [⟨0x1000, 0x10000, .usable⟩]
      ⟨0x100000000, 0x10000000, .usable⟩ [] := ⟨rfl, by decide, by decide⟩
  exact splitMap_booted.reserve hplace (by decide)

theorem splitMachine_free : 0xffde ≤ freePages splitMachine := by
  classical
  have hrun : Finset.Ico 0x100022 0x110000 ⊆
      (Finset.range (Pmm.source 0x22000 splitLimit).bound).filter
        fun page => ¬splitMachine.Used page := by
    intro page hpage
    obtain ⟨hle, hlt⟩ := Finset.mem_Ico.mp hpage
    have hbound : (Pmm.source 0x22000 splitLimit).bound = 0x22000000 := by decide
    have hin : page < (Pmm.source 0x22000 splitLimit).bound := by
      rw [hbound]
      omega
    refine Finset.mem_filter.mpr ⟨Finset.mem_range.mpr hin, fun hused => ?_⟩
    have hnone := (splitPmm_get (i := page) (by omega)).mp hused
    refine hnone ⟨0x100022000, 0xffde000, .usable⟩ (List.mem_cons_of_mem _ List.mem_cons_self)
      ⟨rfl, ?_⟩
    simp only [pageSize]
    omega
  have hcard := Finset.card_le_card hrun
  rw [Nat.card_Ico] at hcard
  unfold freePages
  convert hcard

/-- The tables that the walks for `splitMap` meet: three for each 2 MiB of the direct map, and
three for each page of the image. -/
def splitTables : List (List (Fin 512)) :=
  ((List.range 2176).map fun k => splitHhdm + k * 2 ^ 21).flatMap tablesOf ++
    [0xffffffff80000000, 0xffffffff80002000, 0xffffffff80004000].flatMap tablesOf

theorem splitTables_length : splitTables.length = 6537 := by
  have hthree : ∀ addrs : List Nat, (addrs.flatMap tablesOf).length = 3 * addrs.length := by
    intro addrs
    induction addrs with
    | nil => rfl
    | cons v addrs ih =>
      rw [List.flatMap_cons, List.length_append, ih, List.length_cons]
      exact (Nat.add_comm _ _)
  rw [splitTables, List.length_append, hthree, hthree, List.length_map, List.length_range]
  rfl

/-- Addresses in the same 2 MiB share their tables. -/
theorem tablesOf_congr {v w : Nat} (h : v / 2 ^ 21 = w / 2 ^ 21) : tablesOf v = tablesOf w := by
  have h39 : offset v 39 = offset w 39 := (offset_eq v w 39).mpr (by omega)
  have h30 : offset v 30 = offset w 30 := (offset_eq v w 30).mpr (by omega)
  have h21 : offset v 21 = offset w 21 := (offset_eq v w 21).mpr (by omega)
  rw [tablesOf, tablesOf, tablePath, tablePath, h39, h30, h21]

theorem splitMap_tables : ∀ x ∈ initMappings splitImage splitHhdm splitMapCut,
    ∀ xs ∈ tablesOf x.virt, xs ∈ splitTables := by
  intro x hx xs hxs
  rcases List.mem_append.mp hx with hx | hx
  · refine List.mem_append_right _ (List.mem_flatMap.mpr ⟨x.virt, ?_, hxs⟩)
    have hvirt : (imageMappings splitImage).map Mapping.virt =
        [0xffffffff80000000, 0xffffffff80002000, 0xffffffff80004000] := by decide
    rw [← hvirt]
    exact List.mem_map_of_mem hx
  · obtain ⟨page, hpage, rfl⟩ := List.mem_map.mp hx
    have hlow : page < 0x110000 := by
      rcases (mem_directPages splitMapCut_booted page).mp hpage with ⟨-, hlow⟩ | ⟨-, e, he, hin⟩
      · simp only [fourGiB, pageSize] at hlow
        omega
      · simp only [splitMapCut, List.mem_cons, List.not_mem_nil, or_false] at he
        have hlt := hin.2
        rcases he with rfl | rfl
        · simp only [pageSize] at hlt
          omega
        · simp only [pageSize] at hlt
          omega
    have hvirt : u64 (page * pageSize + splitHhdm) = page * pageSize + splitHhdm :=
      u64_of_lt (by simp only [splitHhdm, pageSize]; omega)
    have hsame : tablesOf (directMapping splitHhdm page).virt =
        tablesOf (splitHhdm + page / 512 * 2 ^ 21) := by
      apply tablesOf_congr
      rw [directMapping, hvirt]
      simp only [splitHhdm, pageSize]
      omega
    rw [hsame] at hxs
    refine List.mem_append_left _ (List.mem_flatMap.mpr ⟨_, List.mem_map_of_mem ?_, hxs⟩)
    exact List.mem_range.mpr (by omega)

theorem splitMap_served : (init splitImage splitMachine splitMapCut).2.refused = false := by
  have hcard := List.toFinset_card_le splitTables
  have hfree := splitMachine_free
  rw [splitTables_length] at hcard
  have henough : splitTables.toFinset.card + 257 ≤ freePages splitMachine :=
    Nat.le_trans (Nat.add_le_add_right hcard 257) (Nat.le_trans (by decide) hfree)
  have htables : ∀ x ∈ initMappings splitImage splitMachine.hhdm splitMapCut,
      ∀ xs ∈ tablesOf x.virt, xs ∈ splitTables.toFinset := by
    intro x hx xs hxs
    apply List.mem_toFinset.mpr
    exact splitMap_tables x hx xs hxs
  exact init_granted (Pmm.source_complete 0x22000 splitLimit) splitMachine_ok rfl
    splitTables.toFinset henough htables

theorem splitMap_direct_map :
    (∀ e ∈ splitMap, ∀ page, 0 < page → e.Holds page →
      TranslatesPage splitHhdm (init splitImage splitMachine splitMapCut) page) ↔
        BitmapShared splitMap :=
  direct_map_iff splitMachine_ok splitMap_booted splitMap_init splitMap_served

/-- The first page of the bitmap is not mapped. -/
theorem bitmap_unmapped :
    Pmm.init (fun _ => 0#8) splitHhdm splitMap = some (splitPmm, splitMapCut) ∧
      (init splitImage splitMachine splitMapCut).2.refused = false ∧
      ∃ e ∈ splitMap, ∃ page, 0 < page ∧ e.Holds page ∧
        ¬TranslatesPage splitHhdm (init splitImage splitMachine splitMapCut) page := by
  refine ⟨splitMap_init, splitMap_served, ⟨0x100000000, 0x10000000, .usable⟩,
    List.mem_cons_of_mem _ List.mem_cons_self, 0x100000, by decide, ?_, ?_⟩
  · exact ⟨0x100000000, by decide, by decide, by decide⟩
  · intro h
    have hwindow : InWindow splitHhdm splitImage 0x100000 := by
      show _ ≤ _
      decide
    have hmem := (init_translates_iff splitMachine_ok splitMapCut_booted splitMap_served hwindow).mp h
    rcases (mem_directPages splitMapCut_booted 0x100000).mp hmem with ⟨-, hlow⟩ | ⟨-, e, he, hin⟩
    · exact absurd hlow (by decide)
    · simp only [splitMapCut, List.mem_cons, List.not_mem_nil, or_false] at he
      obtain ⟨hle, hlt⟩ := hin
      rcases he with rfl | rfl
      · exact absurd hlt (by decide)
      · exact absurd hle (by decide)

end Vmm

end UmbraOS
