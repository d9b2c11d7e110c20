import UmbraOS.PmmSource

namespace UmbraOS

/-- The kinds of regions that the bootloader reports. -/
inductive MemmapType
  | usable
  | reserved
  | acpiReclaimable
  | acpiNvs
  | badMemory
  | bootloaderReclaimable
  | kernelAndModules
  | framebuffer
  deriving DecidableEq

/-- A region of physical memory. -/
structure MemmapEntry where
  base : Nat
  length : Nat
  type : MemmapType

namespace MemmapEntry

/-- The region keeps only what lies behind its first `size` bytes. -/
def reserve (e : MemmapEntry) (size : Nat) : MemmapEntry :=
  { e with base := u64 (e.base + size), length := e.length - size }

/-- A usable region with room for a bitmap of `size` bytes. -/
def Fits (size : Nat) (e : MemmapEntry) : Prop := e.type = .usable ∧ size ≤ e.length

instance (size : Nat) (e : MemmapEntry) : Decidable (e.Fits size) :=
  inferInstanceAs (Decidable (_ ∧ _))

/-- The page has a byte in the region. -/
def Holds (e : MemmapEntry) (page : Nat) : Prop :=
  ∃ a, a / pageSize = page ∧ e.base ≤ a ∧ a < e.base + e.length

/-- The page is in the region when both its ends are rounded outwards to pages. -/
def Covers (e : MemmapEntry) (page : Nat) : Prop :=
  e.base / pageSize ≤ page ∧ page < (e.base + e.length + (pageSize - 1)) / pageSize

/-- The page is in the first `size` bytes of the region. -/
def InFront (e : MemmapEntry) (size page : Nat) : Prop :=
  e.base ≤ page * pageSize ∧ page * pageSize < e.base + size

structure PageAligned (e : MemmapEntry) : Prop where
  base : pageSize ∣ e.base
  length : pageSize ∣ e.length

end MemmapEntry

namespace Pmm

/-- The end of the usable memory. -/
def highestAddr (memmap : List MemmapEntry) : Nat :=
  memmap.foldl (fun highest e =>
    if e.type = .usable then max highest (u64 (e.base + e.length)) else highest) 0

/-- The size of the bitmap in bytes. -/
def bitmapSize (memmap : List MemmapEntry) : Nat :=
  alignUp (highestAddr memmap / pageSize / 8) pageSize

/-- The first entry that the bitmap fits into is cut; the physical address of the bitmap is
returned with the map. -/
def placeBitmap (size : Nat) : List MemmapEntry → Option (Nat × List MemmapEntry)
  | [] => none
  | e :: memmap =>
    if e.Fits size then some (e.base, e.reserve size :: memmap)
    else (placeBitmap size memmap).map fun r => (r.1, e :: r.2)

/-- The bits of the pages of a usable entry are cleared. -/
def freeEntry (b : Bitmap) (e : MemmapEntry) : Bitmap :=
  if e.type = .usable then
    b.setRun (e.base / pageSize) false ((e.length + pageSize - 1) / pageSize)
  else b

/-- `none` when bits would be cleared through the null pointer: no entry has room for the
bitmap, and there is a page to free. -/
def init (mem : Memory) (hhdm : Nat) (memmap : List MemmapEntry) :
    Option (Pmm × List MemmapEntry) :=
  let size := bitmapSize memmap
  match placeBitmap size memmap with
  | some (base, memmap) =>
    let mem := mem.fill (base + hhdm) size 0xff#8
    let bitmap : Bitmap := ⟨fun i => mem (base + hhdm + i), size⟩
    some (⟨memmap.foldl freeEntry bitmap, 0, []⟩, memmap)
  | none =>
    if memmap.any fun e => e.type = .usable && e.length != 0 then none
    else some (⟨⟨mem, size⟩, 0, []⟩, memmap)

end Pmm

namespace MemmapEntry

theorem covers_of_holds {e : MemmapEntry} {page : Nat} (h : e.Holds page) : e.Covers page := by
  obtain ⟨a, rfl, hle, hlt⟩ := h
  unfold Covers pageSize
  omega

/-- What is left of a region after its front was cut off. -/
theorem reserve_covers {e : MemmapEntry} {size page : Nat} (ha : e.PageAligned)
    (hs : pageSize ∣ size) (hle : size ≤ e.length) (hlt : e.base + e.length < 2 ^ 64) :
    (e.reserve size).Covers page ↔ e.Covers page ∧ ¬e.InFront size page := by
  obtain ⟨base, hbase⟩ := ha.base
  obtain ⟨length, hlength⟩ := ha.length
  obtain ⟨count, hcount⟩ := hs
  have hb : u64 (e.base + size) = e.base + size := u64_of_lt (by omega)
  simp only [Covers, InFront, reserve, hb]
  simp only [hbase, hlength, hcount, pageSize] at hle hlt ⊢
  omega

/-- The front of a region is in it. -/
theorem holds_of_inFront {e : MemmapEntry} {size page : Nat} (hle : size ≤ e.length)
    (h : e.InFront size page) : e.Holds page := by
  obtain ⟨hbase, hlt⟩ := h
  exact ⟨page * pageSize, Nat.mul_div_cancel page (by decide), hbase, by omega⟩

end MemmapEntry

namespace Pmm

/-- The entry that the bitmap is placed in, with what stands before and after it in the map. -/
structure Place (size : Nat) (memmap before : List MemmapEntry) (e : MemmapEntry)
    (after : List MemmapEntry) : Prop where
  split : memmap = before ++ e :: after
  fits : e.Fits size
  first : ∀ other ∈ before, ¬other.Fits size

theorem placeBitmap_some {size : Nat} {memmap : List MemmapEntry} {r : Nat × List MemmapEntry}
    (h : placeBitmap size memmap = some r) : ∃ before e after, Place size memmap before e after ∧
      r = (e.base, before ++ e.reserve size :: after) := by
  induction memmap generalizing r with
  | nil => cases h
  | cons e memmap ih =>
    rw [placeBitmap] at h
    split at h
    next hfits =>
      cases Option.some.inj h
      exact ⟨[], e, memmap, ⟨rfl, hfits, fun _ hm => absurd hm List.not_mem_nil⟩, rfl⟩
    next hno =>
      obtain ⟨r', hr', rfl⟩ := Option.map_eq_some_iff.mp h
      obtain ⟨before, place, after, hplace, rfl⟩ := ih hr'
      refine ⟨e :: before, place, after, ⟨?_, hplace.fits, ?_⟩, rfl⟩
      · rw [hplace.split, List.cons_append]
      · intro other hother
        rcases List.mem_cons.mp hother with rfl | hother
        · exact hno
        · exact hplace.first other hother

theorem placeBitmap_none {size : Nat} {memmap : List MemmapEntry}
    (h : placeBitmap size memmap = none) {e : MemmapEntry} (he : e ∈ memmap) : ¬e.Fits size := by
  induction memmap with
  | nil => cases he
  | cons first memmap ih =>
    rw [placeBitmap] at h
    split at h
    next => cases h
    next hno =>
      rcases List.mem_cons.mp he with rfl | he
      · exact hno
      · exact ih (Option.map_eq_none_iff.mp h) he

/-- There is only one place for the bitmap. -/
theorem Place.unique {size : Nat} {memmap before before' after after' : List MemmapEntry}
    {e e' : MemmapEntry} (h : Place size memmap before e after)
    (h' : Place size memmap before' e' after') : before' = before ∧ e' = e ∧ after' = after := by
  induction before generalizing memmap before' with
  | nil =>
    cases before' with
    | nil =>
      have hsplit := h'.split.symm.trans h.split
      rw [List.nil_append, List.nil_append] at hsplit
      obtain ⟨he, hafter⟩ := List.cons.inj hsplit
      exact ⟨rfl, he, hafter⟩
    | cons first before' =>
      have hsplit := h'.split.symm.trans h.split
      rw [List.cons_append, List.nil_append] at hsplit
      obtain ⟨rfl, -⟩ := List.cons.inj hsplit
      exact absurd h.fits (h'.first first List.mem_cons_self)
  | cons first before ih =>
    cases before' with
    | nil =>
      have hsplit := h'.split.symm.trans h.split
      rw [List.cons_append, List.nil_append] at hsplit
      obtain ⟨rfl, -⟩ := List.cons.inj hsplit
      exact absurd h'.fits (h.first e' List.mem_cons_self)
    | cons first' before' =>
      have hsplit := h'.split.symm.trans h.split
      rw [List.cons_append, List.cons_append] at hsplit
      obtain ⟨rfl, hrest⟩ := List.cons.inj hsplit
      have hk : Place size (before ++ e :: after) before e after :=
        ⟨rfl, h.fits, fun other ho => h.first other (List.mem_cons_of_mem _ ho)⟩
      have hk' : Place size (before ++ e :: after) before' e' after' :=
        ⟨hrest.symm, h'.fits, fun other ho => h'.first other (List.mem_cons_of_mem _ ho)⟩
      obtain ⟨rfl, rfl, rfl⟩ := ih hk hk'
      exact ⟨rfl, rfl, rfl⟩

/-- `init` hands the map on as it was, or with the entry of the bitmap cut. -/
theorem init_memmap {mem : Memory} {hhdm : Nat} {memmap memmap' : List MemmapEntry} {pmm : Pmm}
    (h : init mem hhdm memmap = some (pmm, memmap')) :
    (memmap' = memmap ∧ ∀ e ∈ memmap, ¬e.Fits (bitmapSize memmap)) ∨
      ∃ before e after, Place (bitmapSize memmap) memmap before e after ∧
        memmap' = before ++ e.reserve (bitmapSize memmap) :: after := by
  rw [init] at h
  cases hplace : placeBitmap (bitmapSize memmap) memmap with
  | none =>
    rw [hplace] at h
    simp only at h
    split at h
    next => cases h
    next =>
      cases Option.some.inj h
      exact Or.inl ⟨rfl, fun e he => placeBitmap_none hplace he⟩
  | some r =>
    rw [hplace] at h
    cases Option.some.inj h
    obtain ⟨before, e, after, hp, rfl⟩ := placeBitmap_some hplace
    exact Or.inr ⟨before, e, after, hp, rfl⟩

/-- The page indices that are freed for an entry. -/
def Freed (e : MemmapEntry) (i : Nat) : Prop :=
  e.type = .usable ∧ e.base / pageSize ≤ i ∧
    i < e.base / pageSize + (e.length + pageSize - 1) / pageSize

theorem freeEntry_get (b : Bitmap) (e : MemmapEntry) (i : Nat) :
    (freeEntry b e).get i = true ↔ b.get i = true ∧ ¬Freed e i := by
  unfold freeEntry Freed
  by_cases husable : e.type = .usable
  · rw [if_pos husable, Bitmap.get_setRun]
    split
    next hin => exact iff_of_false Bool.false_ne_true fun h => h.2 ⟨husable, hin⟩
    next hout => exact ⟨fun h => ⟨h, fun hf => hout hf.2⟩, fun h => h.1⟩
  · rw [if_neg husable]
    exact ⟨fun h => ⟨h, fun hf => husable hf.1⟩, fun h => h.1⟩

theorem freeEntries_get (b : Bitmap) (memmap : List MemmapEntry) (i : Nat) :
    (memmap.foldl freeEntry b).get i = true ↔
      b.get i = true ∧ ∀ e ∈ memmap, ¬Freed e i := by
  induction memmap generalizing b with
  | nil => exact ⟨fun h => ⟨h, fun _ he => absurd he List.not_mem_nil⟩, fun h => h.1⟩
  | cons e memmap ih => rw [List.foldl_cons, ih, freeEntry_get, List.forall_mem_cons, and_assoc]

theorem freeEntries_size (b : Bitmap) (memmap : List MemmapEntry) :
    (memmap.foldl freeEntry b).size = b.size := by
  induction memmap generalizing b with
  | nil => rfl
  | cons e memmap ih =>
    rw [List.foldl_cons, ih, freeEntry]
    split
    next => exact Bitmap.setRun_size b _ _ _
    next => rfl

theorem filled_get {mem : Memory} {base size i : Nat} (h : i < 8 * size) :
    Bitmap.get ⟨fun k => mem.fill base size 0xff#8 (base + k), size⟩ i = true := by
  have hones : ∀ k < 8, (0xff#8).getLsbD k = true := by decide
  have hbyte : mem.fill base size 0xff#8 (base + i / 8) = 0xff#8 :=
    Memory.fill_inside mem _ (by omega) (by omega)
  rw [Bitmap.get_eq_getLsbD]
  simp only [hbyte]
  exact hones _ (Nat.mod_lt i (by decide))

/-- `init` counts as used exactly the pages that no usable entry of the edited map holds. -/
theorem init_spec {mem : Memory} {hhdm : Nat} {memmap memmap' : List MemmapEntry} {pmm : Pmm}
    (h : init mem hhdm memmap = some (pmm, memmap')) {e : MemmapEntry} (he : e ∈ memmap)
    (hfits : e.Fits (bitmapSize memmap)) : pmm.bitmap.size = bitmapSize memmap ∧
      pmm.lastPageIdx = 0 ∧ ∀ i < 8 * bitmapSize memmap,
        (pmm.bitmap.get i = true ↔ ∀ e ∈ memmap', ¬Freed e i) := by
  rw [init] at h
  cases hplace : placeBitmap (bitmapSize memmap) memmap with
  | none => exact absurd hfits (placeBitmap_none hplace he)
  | some r =>
    rw [hplace] at h
    obtain ⟨rfl, rfl⟩ := Prod.mk.inj (Option.some.inj h)
    refine ⟨freeEntries_size _ _, rfl, fun i hi => ?_⟩
    exact (freeEntries_get _ _ i).trans (and_iff_right (filled_get hi))

/-- The manager that `init` leaves keeps its invariant if page 0 is not usable. -/
theorem init_managed {mem : Memory} {hhdm : Nat} {memmap memmap' : List MemmapEntry} {pmm : Pmm}
    (h : init mem hhdm memmap = some (pmm, memmap')) {e : MemmapEntry} (he : e ∈ memmap)
    (hfits : e.Fits (bitmapSize memmap)) (hsize : 0 < bitmapSize memmap)
    (hzero : ∀ e ∈ memmap', e.type = .usable → pageSize ≤ e.base) :
    Managed (bitmapSize memmap) pmm := by
  obtain ⟨hs, hcursor, hbits⟩ := init_spec h he hfits
  refine ⟨hs, (hbits 0 (by omega)).mpr fun e he hfreed => ?_, ?_⟩
  · have hbase := hzero e he hfreed.1
    have hlow := hfreed.2.1
    simp only [pageSize] at hbase hlow
    omega
  · rw [hcursor]
    exact Nat.zero_le _

end Pmm

end UmbraOS
