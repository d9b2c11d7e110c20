import UmbraOS.MemoryMap

namespace UmbraOS

namespace Pmm

/-- The map after the bitmap was placed. -/
def edited (size : Nat) (memmap : List MemmapEntry) : List MemmapEntry :=
  match placeBitmap size memmap with
  | some r => r.2
  | none => memmap

/-- The page indices that are passed to `Bitmap::set` for an entry. -/
def entryIndices (e : MemmapEntry) : List Nat :=
  if e.type = .usable then
    (List.range ((e.length + pageSize - 1) / pageSize)).map fun k =>
      (e.base + k * pageSize) / pageSize
  else []

/-- The page indices that `init` passes to `Bitmap::set`. -/
def setIndices (memmap : List MemmapEntry) : List Nat :=
  (edited (bitmapSize memmap) memmap).flatMap entryIndices

/-- The bitmap goes into this entry, and not into one before it. -/
def FirstFit (size : Nat) (before : List MemmapEntry) (e : MemmapEntry) : Prop :=
  e.Fits size ∧ ∀ other ∈ before, ¬other.Fits size

instance (size : Nat) (before : List MemmapEntry) (e : MemmapEntry) :
    Decidable (FirstFit size before e) :=
  inferInstanceAs (Decidable (_ ∧ _))

/-- The entry ends at or below a page. -/
def EndsBelow (e : MemmapEntry) (page : Nat) : Prop := e.base + e.length ≤ page * pageSize

/-- The number of pages is rounded up where it is turned into bytes, or what lies above the last
multiple of 32768 pages is nothing but the bitmap. -/
def BitmapCovers (memmap : List MemmapEntry) : Prop :=
  let pages := highestAddr memmap / pageSize
  pages % 32768 = 0 ∨ 8 ≤ pages % 32768 ∨
    ∀ before e after, memmap = before ++ e :: after → e.type = .usable →
      e.length = 0 ∨ EndsBelow e (pages / 32768 * 32768) ∨
        (e.length = pages / 8 ∧ ∀ other ∈ before, ¬other.Fits (pages / 8))

theorem setRun_eq_foldl (b : Bitmap) (first count : Nat) (value : Bool) :
    b.setRun first value count =
      ((List.range count).map (first + ·)).foldl (fun b i => b.set i value) b := by
  induction count generalizing b first with
  | zero => rfl
  | succ count ih =>
    have hshift : (fun k => first + 1 + k) = fun k => first + (k + 1) := by
      funext k
      omega
    rw [Bitmap.setRun, ih, List.range_succ_eq_map, List.map_cons, List.foldl_cons, List.map_map,
      hshift, Nat.add_zero]
    rfl

theorem index_eq (e : MemmapEntry) (k : Nat) :
    (e.base + k * pageSize) / pageSize = e.base / pageSize + k :=
  Nat.add_mul_div_right _ _ (by decide)

theorem mem_entryIndices {e : MemmapEntry} {i : Nat} : i ∈ entryIndices e ↔ Freed e i := by
  unfold entryIndices Freed
  by_cases husable : e.type = .usable
  · rw [if_pos husable, List.mem_map]
    simp only [List.mem_range, index_eq]
    constructor
    · intro h
      obtain ⟨k, hk, rfl⟩ := h
      exact ⟨husable, Nat.le_add_right _ _, Nat.add_lt_add_left hk _⟩
    · intro h
      obtain ⟨-, hle, hlt⟩ := h
      exact ⟨i - e.base / pageSize, by omega, by omega⟩
  · rw [if_neg husable]
    exact ⟨fun h => absurd h List.not_mem_nil, fun h => absurd h.1 husable⟩

theorem freeEntry_eq (b : Bitmap) (e : MemmapEntry) :
    freeEntry b e = (entryIndices e).foldl (fun b i => b.set i false) b := by
  unfold freeEntry entryIndices
  split
  next =>
    rw [setRun_eq_foldl]
    congr 2
    funext k
    exact (index_eq e k).symm
  next => rfl

theorem freeEntries_eq (b : Bitmap) (memmap : List MemmapEntry) :
    memmap.foldl freeEntry b = (memmap.flatMap entryIndices).foldl (fun b i => b.set i false) b := by
  induction memmap generalizing b with
  | nil => rfl
  | cons e memmap ih =>
    rw [List.foldl_cons, ih, freeEntry_eq, List.flatMap_cons, List.foldl_append]

/-- The bitmap that `init` leaves is a filled one with the bits of these indices cleared. -/
theorem init_bitmap {mem : Memory} {hhdm : Nat} {memmap memmap' : List MemmapEntry} {pmm : Pmm}
    (h : init mem hhdm memmap = some (pmm, memmap')) {e : MemmapEntry} (he : e ∈ memmap)
    (hfits : e.Fits (bitmapSize memmap)) : memmap' = edited (bitmapSize memmap) memmap ∧
      ∃ base, pmm.bitmap = (setIndices memmap).foldl (fun b i => b.set i false)
        ⟨fun i => mem.fill (base + hhdm) (bitmapSize memmap) 0xff#8 (base + hhdm + i),
          bitmapSize memmap⟩ := by
  rw [init] at h
  unfold setIndices edited
  cases hplace : placeBitmap (bitmapSize memmap) memmap with
  | none => exact absurd hfits (placeBitmap_none hplace he)
  | some r =>
    rw [hplace] at h
    obtain ⟨rfl, rfl⟩ := Prod.mk.inj (Option.some.inj h)
    exact ⟨rfl, r.1, freeEntries_eq _ _⟩

theorem edited_cons (size : Nat) (e : MemmapEntry) (memmap : List MemmapEntry) :
    edited size (e :: memmap) =
      if e.Fits size then e.reserve size :: memmap else e :: edited size memmap := by
  unfold edited
  rw [placeBitmap]
  by_cases hfits : e.Fits size
  · rw [if_pos hfits, if_pos hfits]
  · rw [if_neg hfits, if_neg hfits]
    cases placeBitmap size memmap with
    | none => rfl
    | some r => rfl

/-- What stands in the edited map in the place of an entry. -/
theorem mem_edited {size : Nat} {memmap : List MemmapEntry} {e' : MemmapEntry} :
    e' ∈ edited size memmap ↔ ∃ before e after, memmap = before ++ e :: after ∧
      e' = if FirstFit size before e then e.reserve size else e := by
  induction memmap with
  | nil =>
    refine ⟨fun h => absurd h List.not_mem_nil, fun h => ?_⟩
    obtain ⟨before, e, after, hsplit, -⟩ := h
    cases before <;> cases hsplit
  | cons first memmap ih =>
    rw [edited_cons]
    by_cases hfits : first.Fits size
    · rw [if_pos hfits, List.mem_cons]
      constructor
      · rintro (rfl | hmem)
        · refine ⟨[], first, memmap, rfl, ?_⟩
          rw [if_pos ⟨hfits, fun _ ho => absurd ho List.not_mem_nil⟩]
        · obtain ⟨before, after, rfl⟩ := List.append_of_mem hmem
          refine ⟨first :: before, e', after, rfl, ?_⟩
          rw [if_neg fun h => h.2 first List.mem_cons_self hfits]
      · rintro ⟨before, e, after, hsplit, rfl⟩
        cases before with
        | nil =>
          obtain ⟨rfl, rfl⟩ := List.cons.inj hsplit
          rw [if_pos ⟨hfits, fun _ ho => absurd ho List.not_mem_nil⟩]
          exact Or.inl rfl
        | cons head before =>
          obtain ⟨rfl, rfl⟩ := List.cons.inj hsplit
          rw [if_neg fun h => h.2 _ List.mem_cons_self hfits]
          exact Or.inr (List.mem_append_right _ List.mem_cons_self)
    · have hrest : ∀ before e, FirstFit size (first :: before) e ↔ FirstFit size before e := by
        intro before e
        unfold FirstFit
        rw [List.forall_mem_cons, and_iff_right hfits]
      rw [if_neg hfits, List.mem_cons, ih]
      constructor
      · rintro (rfl | ⟨before, e, after, rfl, rfl⟩)
        · exact ⟨[], e', memmap, rfl, (if_neg fun h => hfits h.1).symm⟩
        · refine ⟨first :: before, e, after, rfl, ?_⟩
          simp only [hrest]
      · rintro ⟨before, e, after, hsplit, rfl⟩
        cases before with
        | nil =>
          obtain ⟨rfl, rfl⟩ := List.cons.inj hsplit
          exact Or.inl (if_neg fun h => hfits h.1)
        | cons head before =>
          obtain ⟨rfl, rfl⟩ := List.cons.inj hsplit
          refine Or.inr ⟨before, e, after, rfl, ?_⟩
          simp only [hrest]

/-- The page indices of an aligned entry are below a bound when its end is. -/
theorem freed_lt_iff {e : MemmapEntry} (husable : e.type = .usable) (ha : e.PageAligned)
    (bound : Nat) : (∀ i, Freed e i → i < bound) ↔ e.length = 0 ∨ EndsBelow e bound := by
  obtain ⟨base, hbase⟩ := ha.base
  obtain ⟨length, hlength⟩ := ha.length
  unfold Freed EndsBelow
  simp only [hbase, hlength, pageSize]
  constructor
  · intro h
    by_cases hzero : length = 0
    · exact Or.inl (by rw [hzero])
    · have hlast := h (base + length - 1) ⟨husable, by omega, by omega⟩
      exact Or.inr (by omega)
  · rintro h i ⟨-, hle, hlt⟩
    omega

theorem reserve_aligned {e : MemmapEntry} {size : Nat} (ha : e.PageAligned)
    (hs : pageSize ∣ size) (hle : size ≤ e.length) (hlt : e.base + e.length < 2 ^ 64) :
    (e.reserve size).PageAligned ∧ (e.reserve size).base = e.base + size := by
  have hb : u64 (e.base + size) = e.base + size := u64_of_lt (by omega)
  have hbase : (e.reserve size).base = e.base + size := hb
  refine ⟨⟨?_, Nat.dvd_sub ha.length hs⟩, hbase⟩
  rw [hbase]
  exact Nat.dvd_add ha.base hs

/-- What is passed to `Bitmap::set` is below a bound when each entry ends below it or is used up by
the bitmap. -/
theorem indices_lt_iff {memmap : List MemmapEntry} {size : Nat} (hs : pageSize ∣ size)
    (hu : ∀ e ∈ memmap, e.type = .usable → e.PageAligned ∧ e.base + e.length < 2 ^ 64)
    (bound : Nat) : (∀ i ∈ (edited size memmap).flatMap entryIndices, i < bound) ↔
      ∀ before e after, memmap = before ++ e :: after → e.type = .usable →
        e.length = 0 ∨ EndsBelow e bound ∨
          (e.length = size ∧ ∀ other ∈ before, ¬other.Fits size) := by
  have hflat : (∀ i ∈ (edited size memmap).flatMap entryIndices, i < bound) ↔
      ∀ before e after, memmap = before ++ e :: after →
        ∀ i, Freed (if FirstFit size before e then e.reserve size else e) i → i < bound := by
    constructor
    · intro h before e after hsplit i hi
      apply h i
      rw [List.mem_flatMap]
      exact ⟨_, mem_edited.mpr ⟨before, e, after, hsplit, rfl⟩, mem_entryIndices.mpr hi⟩
    · intro h i hi
      obtain ⟨e', he', hmem⟩ := List.mem_flatMap.mp hi
      obtain ⟨before, e, after, hsplit, rfl⟩ := mem_edited.mp he'
      exact h before e after hsplit i (mem_entryIndices.mp hmem)
  rw [hflat]
  refine forall_congr' fun before => forall_congr' fun e => forall_congr' fun after =>
    forall_congr' fun hsplit => ?_
  have hmem : e ∈ memmap := by
    rw [hsplit]
    exact List.mem_append_right _ List.mem_cons_self
  by_cases husable : e.type = .usable
  · obtain ⟨ha, hlt⟩ := hu e hmem husable
    rw [imp_iff_right husable]
    by_cases hfirst : FirstFit size before e
    · have hle := hfirst.1.2
      obtain ⟨har, hbase⟩ := reserve_aligned ha hs hle hlt
      have husable' : (e.reserve size).type = .usable := husable
      rw [if_pos hfirst, freed_lt_iff husable' har, EndsBelow, EndsBelow, hbase]
      have hlength : (e.reserve size).length = e.length - size := rfl
      rw [hlength]
      constructor
      · rintro (hzero | hend)
        · exact Or.inr (Or.inr ⟨by omega, hfirst.2⟩)
        · exact Or.inr (Or.inl (by omega))
      · rintro (hzero | hend | ⟨hsame, -⟩)
        · exact Or.inl (by omega)
        · exact Or.inr (by omega)
        · exact Or.inl (by omega)
    · rw [if_neg hfirst, freed_lt_iff husable ha]
      constructor
      · rintro (hzero | hend)
        · exact Or.inl hzero
        · exact Or.inr (Or.inl hend)
      · rintro (hzero | hend | ⟨hsame, hbefore⟩)
        · exact Or.inl hzero
        · exact Or.inr hend
        · exact absurd ⟨⟨husable, Nat.le_of_eq hsame.symm⟩, hbefore⟩ hfirst
  · have hnone : ∀ i, ¬Freed (if FirstFit size before e then e.reserve size else e) i := by
      intro i hfreed
      have htype := hfreed.1
      split at htype
      next => exact husable htype
      next => exact husable htype
    exact ⟨fun _ h => absurd h husable, fun _ i hi => absurd hi (hnone i)⟩

theorem le_foldl_highest (memmap : List MemmapEntry) (highest : Nat) :
    highest ≤ memmap.foldl (fun highest e =>
        if e.type = .usable then max highest (u64 (e.base + e.length)) else highest) highest ∧
      ∀ e ∈ memmap, e.type = .usable → u64 (e.base + e.length) ≤ memmap.foldl (fun highest e =>
        if e.type = .usable then max highest (u64 (e.base + e.length)) else highest) highest := by
  induction memmap generalizing highest with
  | nil => exact ⟨Nat.le_refl _, fun e he => absurd he List.not_mem_nil⟩
  | cons first memmap ih =>
    rw [List.foldl_cons]
    by_cases husable : first.type = .usable
    · rw [if_pos husable]
      obtain ⟨hle, hall⟩ := ih (max highest (u64 (first.base + first.length)))
      refine ⟨Nat.le_trans (Nat.le_max_left _ _) hle, fun e he ht => ?_⟩
      rcases List.mem_cons.mp he with rfl | he
      · exact Nat.le_trans (Nat.le_max_right _ _) hle
      · exact hall e he ht
    · rw [if_neg husable]
      obtain ⟨hle, hall⟩ := ih highest
      refine ⟨hle, fun e he ht => ?_⟩
      rcases List.mem_cons.mp he with rfl | he
      · exact absurd ht husable
      · exact hall e he ht

theorem le_highestAddr {memmap : List MemmapEntry} {e : MemmapEntry} (he : e ∈ memmap)
    (husable : e.type = .usable) (hlt : e.base + e.length < 2 ^ 64) :
    e.base + e.length ≤ highestAddr memmap := by
  have h := (le_foldl_highest memmap 0).2 e he husable
  rw [u64_of_lt hlt] at h
  exact h

theorem highestAddr_lt (memmap : List MemmapEntry) : highestAddr memmap < 2 ^ 64 := by
  have hstart : (0 : Nat) < 2 ^ 64 := by decide
  unfold highestAddr
  obtain ⟨highest, hh⟩ : ∃ highest, highest = 0 := ⟨0, rfl⟩
  rw [← hh] at hstart ⊢
  clear hh
  induction memmap generalizing highest with
  | nil => exact hstart
  | cons e memmap ih =>
    rw [List.foldl_cons]
    apply ih
    split
    next => exact Nat.max_lt.mpr ⟨hstart, Nat.mod_lt _ (by decide)⟩
    next => exact hstart

theorem bitmapSize_eq (memmap : List MemmapEntry) :
    bitmapSize memmap = (highestAddr memmap / pageSize / 8 + 4095) / 4096 * 4096 := by
  have hlt := highestAddr_lt memmap
  apply alignUp_page
  simp only [pageSize]
  omega

/-- Every index that `init` passes to `Bitmap::set` has a bit exactly when the bitmap covers the
map. -/
theorem init_in_bounds_iff {memmap : List MemmapEntry}
    (hu : ∀ e ∈ memmap, e.type = .usable → e.PageAligned ∧ e.base + e.length < 2 ^ 64) :
    (∀ i ∈ setIndices memmap, i < 8 * bitmapSize memmap) ↔ BitmapCovers memmap := by
  have hsize := bitmapSize_eq memmap
  have hdvd : pageSize ∣ bitmapSize memmap := ⟨_, by rw [hsize, Nat.mul_comm, pageSize]⟩
  have hends : ∀ e ∈ memmap, e.type = .usable → EndsBelow e (highestAddr memmap / pageSize) := by
    intro e he husable
    obtain ⟨ha, hlt⟩ := hu e he husable
    have hle := Nat.div_le_div_right (c := pageSize) (le_highestAddr he husable hlt)
    have hend : (e.base + e.length) / pageSize * pageSize = e.base + e.length :=
      Nat.div_mul_cancel (Nat.dvd_add ha.base ha.length)
    unfold EndsBelow
    rw [← hend]
    exact Nat.mul_le_mul_right _ hle
  unfold setIndices BitmapCovers
  rw [indices_lt_iff hdvd hu]
  obtain ⟨pages, hpages⟩ : ∃ pages, highestAddr memmap / pageSize = pages := ⟨_, rfl⟩
  rw [hpages] at hsize hends
  simp only [hpages]
  by_cases hround : pages % 32768 = 0 ∨ 8 ≤ pages % 32768
  · have hcovers : pages ≤ 8 * bitmapSize memmap := by omega
    refine iff_of_true (fun before e after hsplit husable => Or.inr (Or.inl ?_)) (by omega)
    have hmem : e ∈ memmap := by
      rw [hsplit]
      exact List.mem_append_right _ List.mem_cons_self
    exact Nat.le_trans (hends e hmem husable) (Nat.mul_le_mul_right _ hcovers)
  · have hbits : 8 * bitmapSize memmap = pages / 32768 * 32768 := by omega
    have hbytes : bitmapSize memmap = pages / 8 := by omega
    rw [hbits, hbytes]
    constructor
    · exact fun h => Or.inr (Or.inr h)
    · rintro (hzero | hmany | h)
      · exact absurd (Or.inl hzero) hround
      · exact absurd (Or.inr hmany) hround
      · exact h

/-- A map of one usable region behind the first page. -/
def smallMap : List MemmapEntry := [⟨4096, 40960, .usable⟩]

theorem smallMap_usable (e : MemmapEntry) (he : e ∈ smallMap) (_ : e.type = .usable) :
    e.PageAligned ∧ e.base + e.length < 2 ^ 64 := by
  obtain rfl := List.mem_singleton.mp he
  exact ⟨⟨⟨1, rfl⟩, ⟨10, rfl⟩⟩, by decide⟩

/-- The indices are those of the bits that `init` clears. -/
theorem init_in_bounds_small :
    (∀ e ∈ smallMap, e.type = .usable → e.PageAligned ∧ e.base + e.length < 2 ^ 64) ∧
      ((∀ i ∈ setIndices smallMap, i < 8 * bitmapSize smallMap) ↔ BitmapCovers smallMap) ∧
      ∃ pmm memmap base, init (fun _ => 0#8) 0 smallMap = some (pmm, memmap) ∧
        pmm.bitmap = (setIndices smallMap).foldl (fun b i => b.set i false)
          ⟨fun i => Memory.fill (fun _ => 0#8) (base + 0) (bitmapSize smallMap) 0xff#8 (base + 0 + i),
            bitmapSize smallMap⟩ := by
  have hfits : MemmapEntry.Fits (bitmapSize smallMap) ⟨4096, 40960, .usable⟩ := by decide
  have hmem : (⟨4096, 40960, .usable⟩ : MemmapEntry) ∈ smallMap := List.mem_singleton_self _
  obtain ⟨⟨pmm, memmap⟩, hinit⟩ : ∃ r, init (fun _ => 0#8) 0 smallMap = some r := by
    cases hplace : placeBitmap (bitmapSize smallMap) smallMap with
    | none => exact absurd hfits (placeBitmap_none hplace hmem)
    | some r =>
      rw [init, hplace]
      exact ⟨_, rfl⟩
  obtain ⟨-, base, hbitmap⟩ := init_bitmap hinit hmem hfits
  exact ⟨smallMap_usable, init_in_bounds_iff smallMap_usable, pmm, memmap, base, hinit, hbitmap⟩

/-- The usable memory ends one page behind a multiple of 32768 pages. -/
def pageTooMany : List MemmapEntry := [⟨4096, 134217728, .usable⟩]

theorem bitmapSize_pageTooMany : bitmapSize pageTooMany = 4096 := by decide

/-- The last page has no bit. -/
theorem init_out_of_bounds :
    ¬∀ memmap : List MemmapEntry,
      (∀ e ∈ memmap, e.type = .usable → e.PageAligned ∧ e.base + e.length < 2 ^ 64) →
      ∀ i ∈ setIndices memmap, i < 8 * bitmapSize memmap := by
  intro h
  have husable : ∀ e ∈ pageTooMany, e.type = .usable →
      e.PageAligned ∧ e.base + e.length < 2 ^ 64 := by
    intro e he _
    obtain rfl := List.mem_singleton.mp he
    exact ⟨⟨⟨1, rfl⟩, ⟨32768, rfl⟩⟩, by decide⟩
  have hedited : edited (bitmapSize pageTooMany) pageTooMany = [⟨8192, 134213632, .usable⟩] := by
    rw [bitmapSize_pageTooMany]
    rfl
  have hfreed : Freed ⟨8192, 134213632, .usable⟩ 32768 := ⟨rfl, by decide, by decide⟩
  have hmem : 32768 ∈ setIndices pageTooMany := by
    unfold setIndices
    rw [hedited, List.mem_flatMap]
    exact ⟨_, List.mem_singleton_self _, mem_entryIndices.mpr hfreed⟩
  have hlt := h pageTooMany husable 32768 hmem
  rw [bitmapSize_pageTooMany] at hlt
  exact absurd hlt (by decide)

end Pmm

end UmbraOS
