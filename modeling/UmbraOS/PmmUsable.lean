import UmbraOS.PmmInit

namespace UmbraOS

namespace MemmapEntry

/-- No address is in both regions. -/
def Apart (e e' : MemmapEntry) : Prop :=
  ∀ a, e.base ≤ a → a < e.base + e.length → ¬(e'.base ≤ a ∧ a < e'.base + e'.length)

theorem Apart.symm {e e' : MemmapEntry} (h : e.Apart e') : e'.Apart e :=
  fun a hle hlt hin => h a hin.1 hin.2 ⟨hle, hlt⟩

theorem holds_iff {e : MemmapEntry} (ha : e.PageAligned) (page : Nat) :
    e.Holds page ↔ e.base ≤ page * pageSize ∧ page * pageSize < e.base + e.length := by
  obtain ⟨base, hbase⟩ := ha.base
  obtain ⟨length, hlength⟩ := ha.length
  constructor
  · intro h
    obtain ⟨a, rfl, hle, hlt⟩ := h
    simp only [hbase, hlength, pageSize] at hle hlt ⊢
    omega
  · intro h
    exact ⟨page * pageSize, Nat.mul_div_cancel page (by decide), h.1, h.2⟩

theorem Apart.holds {e e' : MemmapEntry} (h : e.Apart e') (ha : e.PageAligned)
    (ha' : e'.PageAligned) {page : Nat} (hp : e.Holds page) : ¬e'.Holds page := by
  rw [holds_iff ha] at hp
  rw [holds_iff ha']
  exact h _ hp.1 hp.2

/-- Cutting the front off a region takes exactly its pages; a region that ends at `2 ^ 64` may
be used up. -/
theorem reserve_holds {e : MemmapEntry} {size : Nat} (ha : e.PageAligned)
    (hs : pageSize ∣ size) (hle : size ≤ e.length)
    (hlt : 0 < e.length → e.base + e.length ≤ 2 ^ 64) : (e.reserve size).PageAligned ∧
      ∀ page, (e.reserve size).Holds page ↔ e.Holds page ∧ ¬e.InFront size page := by
  have hbase : pageSize ∣ (e.reserve size).base := by
    obtain ⟨base, hbase⟩ := ha.base
    obtain ⟨count, hcount⟩ := hs
    refine ⟨(base + count) % 2 ^ 52, ?_⟩
    simp only [reserve, u64, hbase, hcount, pageSize]
    omega
  have har : (e.reserve size).PageAligned := ⟨hbase, Nat.dvd_sub ha.length hs⟩
  refine ⟨har, fun page => ?_⟩
  rw [holds_iff har, holds_iff ha, InFront]
  by_cases hall : size = e.length
  · have hnone : (e.reserve size).length = 0 := by simp [reserve, hall]
    rw [hnone, hall]
    omega
  · have hend := hlt (by omega)
    have hb : u64 (e.base + size) = e.base + size := u64_of_lt (by omega)
    simp only [reserve, hb]
    omega

end MemmapEntry

namespace Pmm

/-- A memory map that the allocator can be set up from: its usable entries are page-aligned and
apart, one has room for the bitmap, and every usable page has a bit. -/
structure UsableMap (memmap : List MemmapEntry) : Prop where
  aligned : ∀ e ∈ memmap, e.type = .usable → e.PageAligned
  apart : memmap.Pairwise fun e e' => e.type = .usable → e'.type = .usable → e.Apart e'
  room : ∃ e ∈ memmap, e.Fits (bitmapSize memmap)
  indexed : ∀ e ∈ memmap, e.type = .usable → ∀ page, e.Holds page → page < 8 * bitmapSize memmap

/-- The page lies in a usable entry. -/
def UsablePage (memmap : List MemmapEntry) (page : Nat) : Prop :=
  ∃ e ∈ memmap, e.type = .usable ∧ e.Holds page

theorem bitmapSize_le (memmap : List MemmapEntry) : bitmapSize memmap ≤ 2 ^ 49 := by
  have hlt := highestAddr_lt memmap
  rw [bitmapSize_eq]
  simp only [pageSize]
  omega

theorem UsableMap.inside {memmap : List MemmapEntry} (h : UsableMap memmap) {e : MemmapEntry}
    (he : e ∈ memmap) (ht : e.type = .usable) (hpos : 0 < e.length) :
    e.base + e.length ≤ 2 ^ 64 := by
  have hsize := bitmapSize_le memmap
  have ha := h.aligned e he ht
  obtain ⟨base, hbase⟩ := ha.base
  obtain ⟨length, hlength⟩ := ha.length
  have hlast : e.Holds (base + length - 1) := by
    rw [MemmapEntry.holds_iff ha]
    simp only [hbase, hlength, pageSize] at hpos ⊢
    omega
  have hbit := h.indexed e he ht _ hlast
  simp only [hbase, hlength, pageSize] at hpos ⊢
  omega

theorem freed_iff_holds {e : MemmapEntry} (ht : e.type = .usable) (ha : e.PageAligned)
    (page : Nat) : Freed e page ↔ e.Holds page := by
  obtain ⟨base, hbase⟩ := ha.base
  obtain ⟨length, hlength⟩ := ha.length
  rw [MemmapEntry.holds_iff ha, Freed, and_iff_right ht]
  simp only [hbase, hlength, pageSize]
  omega

/-- An entry of the edited map is the cut one, or was there before. -/
theorem mem_around {α : Type} {before after : List α} {a b : α} :
    b ∈ before ++ a :: after ↔ b = a ∨ b ∈ before ∨ b ∈ after := by
  rw [List.mem_append, List.mem_cons, or_left_comm]

theorem Place.mem {size : Nat} {memmap before after : List MemmapEntry} {e u : MemmapEntry}
    (h : Place size memmap before e after) : u ∈ memmap ↔ u = e ∨ u ∈ before ∨ u ∈ after := by
  rw [h.split, mem_around]

section Placed

variable {memmap before after : List MemmapEntry} {e : MemmapEntry}

/-- A page of an entry that was not cut is not in the front of the one that was. -/
theorem UsableMap.elsewhere (h : UsableMap memmap)
    (hp : Place (bitmapSize memmap) memmap before e after) {u : MemmapEntry}
    (hu : u ∈ before ∨ u ∈ after) (ht : u.type = .usable) {page : Nat} (hpage : u.Holds page) :
    ¬e.InFront (bitmapSize memmap) page := by
  have hapart : u.Apart e := by
    have hpairs := h.apart
    rw [hp.split] at hpairs
    obtain ⟨-, hrest, hcross⟩ := List.pairwise_append.mp hpairs
    rcases hu with hu | hu
    · exact hcross u hu e List.mem_cons_self ht hp.fits.1
    · exact ((List.pairwise_cons.mp hrest).1 u hu hp.fits.1 ht).symm
  intro hfront
  exact hapart.holds (h.aligned u (hp.mem.mpr (Or.inr hu)) ht)
    (h.aligned e (hp.mem.mpr (Or.inl rfl)) hp.fits.1) hpage
    (MemmapEntry.holds_of_inFront hp.fits.2 hfront)

theorem UsableMap.cut (h : UsableMap memmap)
    (hp : Place (bitmapSize memmap) memmap before e after) :
    (e.reserve (bitmapSize memmap)).PageAligned ∧
      ∀ page, (e.reserve (bitmapSize memmap)).Holds page ↔
        e.Holds page ∧ ¬e.InFront (bitmapSize memmap) page := by
  have he : e ∈ memmap := hp.mem.mpr (Or.inl rfl)
  have hdvd : pageSize ∣ bitmapSize memmap :=
    ⟨_, by rw [bitmapSize_eq, Nat.mul_comm, pageSize]⟩
  exact MemmapEntry.reserve_holds (h.aligned e he hp.fits.1) hdvd hp.fits.2
    (h.inside he hp.fits.1)

/-- What the entries of the edited map free. -/
theorem UsableMap.freed_iff (h : UsableMap memmap)
    (hp : Place (bitmapSize memmap) memmap before e after) (page : Nat) :
    (∃ u ∈ before ++ e.reserve (bitmapSize memmap) :: after, Freed u page) ↔
      UsablePage memmap page ∧ ¬e.InFront (bitmapSize memmap) page := by
  obtain ⟨har, hcut⟩ := h.cut hp
  have husable : (e.reserve (bitmapSize memmap)).type = .usable := hp.fits.1
  have hcutFreed : Freed (e.reserve (bitmapSize memmap)) page ↔
      e.Holds page ∧ ¬e.InFront (bitmapSize memmap) page :=
    (freed_iff_holds husable har page).trans (hcut page)
  have hotherFreed : ∀ u, u ∈ before ∨ u ∈ after → u.type = .usable →
      (Freed u page ↔ u.Holds page) := fun u hu ht =>
    freed_iff_holds ht (h.aligned u (hp.mem.mpr (Or.inr hu)) ht) page
  constructor
  · intro hfreed
    obtain ⟨u, hu, hfreed⟩ := hfreed
    rcases mem_around.mp hu with hu | hu
    · rw [hu, hcutFreed] at hfreed
      exact ⟨⟨e, hp.mem.mpr (Or.inl rfl), hp.fits.1, hfreed.1⟩, hfreed.2⟩
    · have hholds := (hotherFreed u hu hfreed.1).mp hfreed
      exact ⟨⟨u, hp.mem.mpr (Or.inr hu), hfreed.1, hholds⟩, h.elsewhere hp hu hfreed.1 hholds⟩
  · intro hpage
    obtain ⟨⟨u, hu, ht, hholds⟩, hfront⟩ := hpage
    rcases hp.mem.mp hu with hu | hu
    · rw [hu] at hholds
      exact ⟨_, mem_around.mpr (Or.inl rfl), hcutFreed.mpr ⟨hholds, hfront⟩⟩
    · exact ⟨u, mem_around.mpr (Or.inr hu), (hotherFreed u hu ht).mpr hholds⟩

end Placed

/-- After `init` the free pages are the usable ones without those of the bitmap, which are cut off
the front of one entry. -/
theorem init_frees_usable (mem : Memory) (hhdm : Nat) {memmap : List MemmapEntry}
    (h : UsableMap memmap) :
    ∃ pmm before e after, Place (bitmapSize memmap) memmap before e after ∧
      init mem hhdm memmap =
        some (pmm, before ++ e.reserve (bitmapSize memmap) :: after) ∧
      pmm.bitmap.size = bitmapSize memmap ∧
      (∀ page < 8 * bitmapSize memmap, pmm.bitmap.get page = false ↔
        UsablePage memmap page ∧ ¬e.InFront (bitmapSize memmap) page) ∧
      (e.reserve (bitmapSize memmap)).length + bitmapSize memmap = e.length ∧
      ∀ page, (e.reserve (bitmapSize memmap)).Holds page ↔
        e.Holds page ∧ ¬e.InFront (bitmapSize memmap) page := by
  obtain ⟨fit, hfit, hfits⟩ := h.room
  cases hplace : placeBitmap (bitmapSize memmap) memmap with
  | none => exact absurd hfits (placeBitmap_none hplace hfit)
  | some r =>
    obtain ⟨before, e, after, hp, rfl⟩ := placeBitmap_some hplace
    obtain ⟨pmm, hinit⟩ : ∃ pmm, init mem hhdm memmap =
        some (pmm, before ++ e.reserve (bitmapSize memmap) :: after) := by
      rw [init, hplace]
      exact ⟨_, rfl⟩
    obtain ⟨hsize, -, hbits⟩ := init_spec hinit hfit hfits
    refine ⟨pmm, before, e, after, hp, hinit, hsize, fun page hpage => ?_,
      Nat.sub_add_cancel hp.fits.2, (h.cut hp).2⟩
    rw [← h.freed_iff hp, ← Bool.not_eq_true, hbits page hpage]
    push Not
    exact Iff.rfl

/-- The entries of the example stand out of order, and the bitmap goes into the second. -/
def usableMap : List MemmapEntry :=
  [⟨0, 4096, .reserved⟩, ⟨32768, 98304, .usable⟩, ⟨4096, 8192, .usable⟩]

theorem bitmapSize_usableMap : bitmapSize usableMap = 4096 := by decide

theorem usableMap_entry {e : MemmapEntry} (he : e ∈ usableMap) (ht : e.type = .usable) :
    e = ⟨32768, 98304, .usable⟩ ∨ e = ⟨4096, 8192, .usable⟩ := by
  simp only [usableMap, List.mem_cons, List.not_mem_nil, or_false] at he
  rcases he with rfl | he
  · cases ht
  · exact he

theorem usableMap_usable : UsableMap usableMap where
  aligned e he ht := by
    rcases usableMap_entry he ht with rfl | rfl
    · exact ⟨⟨8, rfl⟩, ⟨24, rfl⟩⟩
    · exact ⟨⟨1, rfl⟩, ⟨2, rfl⟩⟩
  apart := by
    have hreserved : ¬MemmapType.reserved = .usable := by decide
    simp only [usableMap, List.pairwise_cons, List.mem_cons, List.not_mem_nil, or_false,
      forall_eq, hreserved, false_implies, implies_true, forall_const,
      List.Pairwise.nil, and_true, true_and, MemmapEntry.Apart]
    omega
  room := ⟨⟨32768, 98304, .usable⟩, by simp [usableMap], rfl, by rw [bitmapSize_usableMap]; decide⟩
  indexed e he ht page hpage := by
    obtain ⟨a, rfl, hle, hlt⟩ := hpage
    rw [bitmapSize_usableMap]
    rcases usableMap_entry he ht with rfl | rfl
    · simp only [pageSize] at hlt ⊢
      omega
    · simp only [pageSize] at hlt ⊢
      omega

theorem init_frees_usableMap : ∃ pmm before e after,
    Place (bitmapSize usableMap) usableMap before e after ∧
      init (fun _ => 0#8) 0 usableMap =
        some (pmm, before ++ e.reserve (bitmapSize usableMap) :: after) ∧
      pmm.bitmap.size = bitmapSize usableMap ∧
      (∀ page < 8 * bitmapSize usableMap, pmm.bitmap.get page = false ↔
        UsablePage usableMap page ∧ ¬e.InFront (bitmapSize usableMap) page) ∧
      (e.reserve (bitmapSize usableMap)).length + bitmapSize usableMap = e.length ∧
      ∀ page, (e.reserve (bitmapSize usableMap)).Holds page ↔
        e.Holds page ∧ ¬e.InFront (bitmapSize usableMap) page :=
  init_frees_usable _ _ usableMap_usable

end Pmm

end UmbraOS
