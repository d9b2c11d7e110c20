import UmbraOS.Pmm
import Mathlib.Logic.Relation

namespace UmbraOS

namespace Pmm

/-- What `alloc` does while page 0 is taken and every page has a 64-bit address: it hands
out a run below the limit, or there is none. -/
inductive Allocated (p : Pmm) (pages : Nat) : Nat × Pmm → Prop
  | run (page cursor : Nat) (touched : List Nat) (positive : 0 < page)
      (stop : page + pages ≤ p.scanLimit) (clear : FreeRun p.bitmap page pages)
      (bound : cursor ≤ p.scanLimit) :
      Allocated p pages
        (page * pageSize, ⟨p.bitmap.setRun page true pages, cursor, touched⟩)
  | full (cursor : Nat) (touched : List Nat) (none : ¬HasFreeRun p.bitmap pages 0 p.scanLimit)
      (bound : cursor ≤ p.scanLimit) :
      Allocated p pages (0, ⟨p.bitmap, cursor, touched⟩)

theorem freeRun_positive {b : Bitmap} {page pages : Nat} (h0 : b.get 0 = true)
    (hp : 0 < pages) (h : FreeRun b page pages) : 0 < page := by
  by_contra hz
  have h' := h 0 (by omega) (by omega)
  rw [h0] at h'
  cases h'

/-- Below page `2 ^ 52` the byte address of a page is not reduced. -/
theorem page_address {page limit : Nat} (hp : page < limit) (hl : limit ≤ 2 ^ 52) :
    u64 (page * pageSize) = page * pageSize := by
  apply u64_of_lt
  simp only [pageSize]
  omega

theorem scanned_allocated {p q : Pmm} {pages : Nat} {r : Nat × Pmm} (hp : 0 < pages)
    (hb : q.bitmap = p.bitmap) (h0 : p.bitmap.get 0 = true) (hl : p.scanLimit ≤ 2 ^ 52)
    (hr : r.1 ≠ 0) (h : Scanned q pages p.scanLimit r) : Allocated p pages r := by
  cases h with
  | missing => exact absurd rfl hr
  | found page touched start stop clear first reads =>
    rw [hb] at clear ⊢
    rw [page_address (by omega : page < p.scanLimit) hl]
    exact Allocated.run page _ _ (freeRun_positive h0 hp clear) stop clear stop

theorem found_address_ne {b : Bitmap} {page pages limit : Nat} (hp : 0 < pages)
    (h0 : b.get 0 = true) (hl : limit ≤ 2 ^ 52) (stop : page + pages ≤ limit)
    (clear : FreeRun b page pages) : u64 (page * pageSize) ≠ 0 := by
  have hpos := freeRun_positive h0 hp clear
  rw [page_address (by omega : page < limit) hl]
  simp only [pageSize]
  omega

theorem alloc_allocated {p : Pmm} {pages : Nat} (hp : 0 < pages) (h0 : p.bitmap.get 0 = true)
    (hc : p.lastPageIdx ≤ p.scanLimit) (hl : p.scanLimit ≤ 2 ^ 52) :
    Allocated p pages (p.alloc pages) := by
  have hfirst := innerAlloc_scanned hp hc
  rw [alloc_of_pos p hp]
  generalize p.innerAlloc pages p.scanLimit = first at hfirst ⊢
  by_cases hr : first.1 = 0
  · rw [if_pos hr]
    -- the first scan found nothing, so the second one covers every page below the limit
    cases hfirst with
    | found page touched start stop clear =>
      exact absurd hr (found_address_ne hp h0 hl stop clear)
    | missing touched =>
      have hsecond : Scanned ⟨p.bitmap, 0, touched⟩ pages p.scanLimit _ :=
        innerAlloc_scanned hp (Nat.zero_le _)
      generalize innerAlloc ⟨p.bitmap, 0, touched⟩ pages p.scanLimit = second at hsecond ⊢
      by_cases hr : second.1 = 0
      · cases hsecond with
        | found page touched start stop clear =>
          exact absurd hr (found_address_ne hp h0 hl stop clear)
        | missing touched none => exact Allocated.full _ _ none (le_refl _)
      · exact scanned_allocated (q := ⟨p.bitmap, 0, touched⟩) hp rfl h0 hl hr hsecond
  · rw [if_neg hr]
    exact scanned_allocated hp rfl h0 hl hr hfirst

/-- A page belongs to the run of a call result and its page count. -/
def InRun (r : Nat × Nat) (i : Nat) : Prop :=
  r.1 / pageSize ≤ i ∧ i < r.1 / pageSize + r.2

/-- A call of `alloc` returns a run of clear bits and sets exactly these, or returns the
null pointer and leaves every bit. -/
def AllocatesRun (p : Pmm) (pages : Nat) : Prop :=
  ((p.alloc pages).1 ≠ 0 → ∃ page, (p.alloc pages).1 = page * pageSize ∧
    FreeRun p.bitmap page pages ∧
    ∀ i, (p.alloc pages).2.bitmap.get i =
      if page ≤ i ∧ i < page + pages then true else p.bitmap.get i) ∧
  ((p.alloc pages).1 = 0 → ∀ i, (p.alloc pages).2.bitmap.get i = p.bitmap.get i)

open Classical in
def FreesRun (p : Pmm) (r : Nat × Nat) : Prop :=
  ∀ i, (p.free r.1 r.2).bitmap.get i = if InRun r i then false else p.bitmap.get i

/-- The manager together with the runs handed out and not returned. -/
structure History where
  pmm : Pmm
  live : List (Nat × Nat)

inductive HistoryStep : History → History → Prop
  | alloc (h : History) (pages : Nat) :
      HistoryStep h ⟨(h.pmm.alloc pages).2,
        if (h.pmm.alloc pages).1 = 0 then h.live
        else ((h.pmm.alloc pages).1, pages) :: h.live⟩
  | free (h : History) (r : Nat × Nat) (live : r ∈ h.live) :
      HistoryStep h ⟨h.pmm.free r.1 r.2, h.live.erase r⟩

/-- The bookkeeping of the manager is right after every history of calls. -/
def KeepsRuns (p : Pmm) : Prop :=
  ∀ h, Relation.ReflTransGen HistoryStep ⟨p, []⟩ h →
    (∀ pages, AllocatesRun h.pmm pages) ∧ (∀ r ∈ h.live, FreesRun h.pmm r) ∧
    (∀ r ∈ h.live, ∀ i, InRun r i → h.pmm.bitmap.get i = true) ∧
    h.live.Pairwise fun r s => ∀ i, InRun r i → ¬InRun s i

/-- What every history keeps. -/
structure HistoryInv (size : Nat) (h : History) : Prop where
  size : h.pmm.bitmap.size = size
  zero : h.pmm.bitmap.get 0 = true
  cursor : h.pmm.lastPageIdx ≤ h.pmm.scanLimit
  inside : ∀ r ∈ h.live, ∃ page, 0 < page ∧ page + r.2 ≤ h.pmm.scanLimit ∧
    r.1 = page * pageSize
  used : ∀ r ∈ h.live, ∀ i, InRun r i → h.pmm.bitmap.get i = true
  disjoint : h.live.Pairwise fun r s => ∀ i, InRun r i → ¬InRun s i

theorem inRun_page {page pages i : Nat} :
    InRun (page * pageSize, pages) i ↔ page ≤ i ∧ i < page + pages := by
  simp [InRun, pageSize]

theorem alloc_zero (p : Pmm) : p.alloc 0 = (0, p) := rfl

theorem alloc_allocatesRun {p : Pmm} (pages : Nat) (h0 : p.bitmap.get 0 = true)
    (hc : p.lastPageIdx ≤ p.scanLimit) (hl : p.scanLimit ≤ 2 ^ 52) : AllocatesRun p pages := by
  rcases Nat.eq_zero_or_pos pages with rfl | hp
  · exact ⟨fun h => absurd rfl h, fun _ _ => rfl⟩
  · have ha := alloc_allocated hp h0 hc hl
    unfold AllocatesRun
    generalize p.alloc pages = r at ha ⊢
    cases ha with
    | full => exact ⟨fun h => absurd rfl h, fun _ _ => rfl⟩
    | run page cursor touched positive stop clear bound =>
      refine ⟨fun _ => ⟨page, rfl, clear, fun i => Bitmap.get_setRun _ _ _ _ _⟩, ?_⟩
      intro hz
      simp only [pageSize] at hz
      omega

theorem free_freesRun {p : Pmm} {r : Nat × Nat} {page : Nat} (hl : p.scanLimit ≤ 2 ^ 52)
    (hr : r.1 = page * pageSize) (hp : page + r.2 ≤ p.scanLimit) : FreesRun p r := by
  obtain ⟨addr, pages⟩ := r
  simp only at hr hp
  subst hr
  intro i
  have hidx : page * pageSize / pageSize = page := Nat.mul_div_cancel _ (by decide)
  simp only [free, hidx, u64_of_lt (by omega : page + pages < 2 ^ 64), Bitmap.get_setRun, inRun_page]
  rw [show page + (page + pages - page) = page + pages by omega]

theorem free_scanLimit (p : Pmm) (addr pages : Nat) : (p.free addr pages).scanLimit = p.scanLimit := by
  simp [scanLimit, free]

theorem HistoryInv.alloc {size : Nat} {h : History} (hi : HistoryInv size h)
    (hl : h.pmm.scanLimit ≤ 2 ^ 52) (pages : Nat) :
    HistoryInv size ⟨(h.pmm.alloc pages).2,
      if (h.pmm.alloc pages).1 = 0 then h.live
      else ((h.pmm.alloc pages).1, pages) :: h.live⟩ := by
  rcases Nat.eq_zero_or_pos pages with rfl | hp
  · rw [alloc_zero]
    exact hi
  · have ha := alloc_allocated hp hi.zero hi.cursor hl
    generalize h.pmm.alloc pages = r at ha ⊢
    cases ha with
    | full cursor touched none bound =>
      exact ⟨hi.size, hi.zero, bound, hi.inside, hi.used, hi.disjoint⟩
    | run page cursor touched positive stop clear bound =>
      have hne : page * pageSize ≠ 0 := by simp only [pageSize]; omega
      have hlim : (⟨h.pmm.bitmap.setRun page true pages, cursor, touched⟩ : Pmm).scanLimit
          = h.pmm.scanLimit := by simp [scanLimit]
      simp only [if_neg hne]
      refine ⟨by simp [hi.size], ?_, by rw [hlim]; exact bound, ?_, ?_, ?_⟩
      · rw [Bitmap.get_setRun, if_neg (by omega)]
        exact hi.zero
      · intro r hr
        rw [hlim]
        rcases List.mem_cons.mp hr with rfl | hr
        · exact ⟨page, positive, stop, rfl⟩
        · exact hi.inside r hr
      · intro r hr i hin
        rw [Bitmap.get_setRun]
        rcases List.mem_cons.mp hr with rfl | hr
        · rw [if_pos (inRun_page.mp hin)]
        · split
          · rfl
          · exact hi.used r hr i hin
      · refine List.pairwise_cons.mpr ⟨?_, hi.disjoint⟩
        intro r hr i hnew hold
        have hclear := clear i (inRun_page.mp hnew).1 (inRun_page.mp hnew).2
        rw [hi.used r hr i hold] at hclear
        cases hclear

theorem HistoryInv.free {size : Nat} {h : History} (hi : HistoryInv size h)
    (hl : h.pmm.scanLimit ≤ 2 ^ 52) {r : Nat × Nat} (hr : r ∈ h.live) :
    HistoryInv size ⟨h.pmm.free r.1 r.2, h.live.erase r⟩ := by
  obtain ⟨page, hpos, hstop, haddr⟩ := hi.inside r hr
  have hbits := free_freesRun hl haddr hstop
  have hrest : ∀ s ∈ h.live.erase r, ∀ i, InRun s i → ¬InRun r i := by
    intro s hs i his hir
    have hp := (List.perm_cons_erase hr).pairwise_iff
      (R := fun r s => ∀ i, InRun r i → ¬InRun s i) (fun {a b} hab i hb ha => hab i ha hb)
    exact (List.pairwise_cons.mp (hp.mp hi.disjoint)).1 s hs i hir his
  refine ⟨hi.size ▸ (by simp [Pmm.free]), ?_, ?_, ?_, ?_, hi.disjoint.sublist List.erase_sublist⟩
  · rw [hbits 0, if_neg]
    · exact hi.zero
    · intro hin
      rw [show r = (page * pageSize, r.2) from Prod.ext haddr rfl] at hin
      have := (inRun_page.mp hin).1
      omega
  · rw [free_scanLimit]
    exact hi.cursor
  · intro s hs
    rw [free_scanLimit]
    exact hi.inside s (List.mem_of_mem_erase hs)
  · intro s hs i his
    rw [hbits i, if_neg (hrest s hs i his)]
    exact hi.used s (List.mem_of_mem_erase hs) i his

theorem historyInv_reachable {p : Pmm} (h0 : p.bitmap.get 0 = true)
    (hc : p.lastPageIdx ≤ p.scanLimit) (hl : p.scanLimit ≤ 2 ^ 52) {h : History}
    (reach : Relation.ReflTransGen HistoryStep ⟨p, []⟩ h) : HistoryInv p.bitmap.size h := by
  induction reach with
  | refl => exact ⟨rfl, h0, hc, by simp, by simp, List.Pairwise.nil⟩
  | tail _ step ih =>
    cases step with
    | alloc pages =>
      exact ih.alloc (by rw [scanLimit, ih.size]; exact hl) pages
    | free r live => exact ih.free (by rw [scanLimit, ih.size]; exact hl) live

/-- With page 0 taken and the scan limit at most `2 ^ 52`, every page below the limit has a
64-bit byte address and the manager keeps its runs. -/
theorem pmm_keeps_runs {p : Pmm} (h0 : p.bitmap.get 0 = true)
    (hc : p.lastPageIdx ≤ p.scanLimit) (hl : p.scanLimit ≤ 2 ^ 52) : KeepsRuns p := by
  intro h reach
  have hi := historyInv_reachable h0 hc hl reach
  have hlim : h.pmm.scanLimit ≤ 2 ^ 52 := by rw [scanLimit, hi.size]; exact hl
  refine ⟨fun pages => alloc_allocatesRun pages hi.zero hi.cursor hlim, ?_, hi.used, hi.disjoint⟩
  intro r hr
  obtain ⟨page, _, hstop, haddr⟩ := hi.inside r hr
  exact free_freesRun hlim haddr hstop

theorem hasFreeRun_of_run {p : Pmm} {pages page : Nat} (stop : page + pages ≤ p.scanLimit)
    (clear : FreeRun p.bitmap page pages) : HasFreeRun p.bitmap pages 0 p.scanLimit :=
  ⟨page, Nat.zero_le _, stop, clear⟩

/-- Both scans together miss no run of clear bits below the limit, and the cursor stays at or below
the limit of the next call. -/
theorem alloc_complete {p : Pmm} {pages : Nat} (hp : 0 < pages) (h0 : p.bitmap.get 0 = true)
    (hc : p.lastPageIdx ≤ p.scanLimit) (hl : p.scanLimit ≤ 2 ^ 52) :
    ((p.alloc pages).1 ≠ 0 ↔ HasFreeRun p.bitmap pages 0 p.scanLimit) ∧
      (p.alloc pages).2.scanLimit = p.scanLimit ∧
      (p.alloc pages).2.lastPageIdx ≤ p.scanLimit := by
  have ha := alloc_allocated hp h0 hc hl
  generalize p.alloc pages = r at ha ⊢
  cases ha with
  | full cursor touched none bound => exact ⟨⟨fun h => absurd rfl h, fun h => absurd h none⟩, rfl, bound⟩
  | run page cursor touched positive stop clear bound =>
    have hne : page * pageSize ≠ 0 := by
      simp only [pageSize]
      omega
    refine ⟨⟨fun _ => hasFreeRun_of_run stop clear, fun _ => hne⟩, ?_, bound⟩
    simp [scanLimit]

/-- A manager of 32768 pages in which every eighth page is taken. -/
def smallPmm : Pmm := ⟨⟨fun _ => 1#8, 4096⟩, 0, []⟩

theorem smallPmm_keeps_runs : KeepsRuns smallPmm :=
  pmm_keeps_runs (by decide) (by decide) (by decide)

/-- The cursor stands inside the only run of two clear bits. -/
def straddlePmm : Pmm := ⟨⟨fun i => if i = 0 then 0xe7#8 else 0xff#8, 1⟩, 4, []⟩

theorem alloc_complete_straddle :
    ((straddlePmm.alloc 2).1 ≠ 0 ↔ HasFreeRun straddlePmm.bitmap 2 0 straddlePmm.scanLimit) ∧
      (straddlePmm.alloc 2).2.scanLimit = straddlePmm.scanLimit ∧
      (straddlePmm.alloc 2).2.lastPageIdx ≤ straddlePmm.scanLimit :=
  alloc_complete (by decide) (by decide) (by decide) (by decide)

/-- A bitmap of `2 ^ 40 + 1` bytes with only page `2 ^ 52` free, and the cursor on it. -/
def widePmm : Pmm := ⟨⟨fun i => if i = 2 ^ 49 then 254#8 else 255#8, 2 ^ 40 + 1⟩, 2 ^ 52, []⟩

theorem widePmm_get (i : Nat) : widePmm.bitmap.get i = decide (i ≠ 2 ^ 52) := by
  have hfull : ∀ k < 8, (255#8).getLsbD k = true := by decide
  have hhole : ∀ k < 8, (254#8).getLsbD k = decide (k ≠ 0) := by decide
  have hk : i % 8 < 8 := Nat.mod_lt _ (by decide)
  rw [Bitmap.get_eq_getLsbD]
  by_cases hi : i / 8 = 2 ^ 49
  · simp only [widePmm, hi, if_true, hhole _ hk]
    exact decide_eq_decide.mpr (by omega)
  · simp only [widePmm, hi, if_false, hfull _ hk]
    exact (decide_eq_true (by omega)).symm

/-- The byte address of page `2 ^ 52` is 0 modulo `2 ^ 64`: the scan marks the page and
returns what the caller reads as a failure. -/
theorem widePmm_alloc : (widePmm.alloc 1).1 = 0 ∧
    (widePmm.alloc 1).2.bitmap.get (2 ^ 52) = true := by
  have hlim : widePmm.scanLimit = 2 ^ 52 + 4096 := by decide
  have hfirst : Scanned widePmm 1 (2 ^ 52 + 4096) _ := innerAlloc_scanned (by decide) (by decide)
  rw [alloc_of_pos _ Nat.one_pos, hlim]
  generalize widePmm.innerAlloc 1 (2 ^ 52 + 4096) = first at hfirst ⊢
  cases hfirst with
  | missing touched none =>
    refine absurd ⟨2 ^ 52, le_refl _, by decide, ?_⟩ none
    intro i hi hl
    rw [widePmm_get]
    exact decide_eq_false (by omega)
  | found page touched start stop clear =>
    have hclear := clear page (le_refl _) (by omega)
    rw [widePmm_get, decide_eq_false_iff_not, not_not] at hclear
    subst hclear
    have hfull : ∀ i, (widePmm.bitmap.setRun (2 ^ 52) true 1).get i = true := by
      intro i
      rw [Bitmap.get_setRun, widePmm_get]
      split
      · rfl
      · exact decide_eq_true (by omega)
    rw [if_pos (show u64 (2 ^ 52 * pageSize) = 0 by decide)]
    have hsecond : Scanned ⟨widePmm.bitmap.setRun (2 ^ 52) true 1, 0, touched⟩ 1 (2 ^ 52 + 1) _ :=
      innerAlloc_scanned (by decide) (Nat.zero_le _)
    generalize innerAlloc ⟨widePmm.bitmap.setRun (2 ^ 52) true 1, 0, touched⟩ 1
      (2 ^ 52 + 1) = second at hsecond ⊢
    cases hsecond with
    | missing => exact ⟨rfl, hfull _⟩
    | found page touched start stop clear =>
      have hclear := clear page (le_refl _) (by omega)
      rw [hfull] at hclear
      cases hclear

theorem widePmm_loses_a_page : widePmm.bitmap.get 0 = true ∧
    widePmm.lastPageIdx ≤ widePmm.scanLimit ∧ ¬KeepsRuns widePmm := by
  refine ⟨(widePmm_get 0).trans (decide_eq_true (by omega)), by decide, ?_⟩
  intro h
  obtain ⟨hnull, hset⟩ := widePmm_alloc
  have hcall : AllocatesRun widePmm 1 := (h _ Relation.ReflTransGen.refl).1 1
  have hkept := hcall.2 hnull (2 ^ 52)
  have hclear := widePmm_get (2 ^ 52)
  rw [hset] at hkept
  rw [← hkept] at hclear
  exact absurd (of_decide_eq_true hclear.symm) (not_not.mpr rfl)

/-- Page `2 ^ 52` is a run of one clear bit, and the call that finds it returns the null pointer. -/
theorem widePmm_incomplete : widePmm.bitmap.get 0 = true ∧
    widePmm.lastPageIdx ≤ widePmm.scanLimit ∧
    ¬((widePmm.alloc 1).1 ≠ 0 ↔ HasFreeRun widePmm.bitmap 1 0 widePmm.scanLimit) := by
  refine ⟨(widePmm_get 0).trans (decide_eq_true (by omega)), by decide, fun h => ?_⟩
  apply h.mpr ⟨2 ^ 52, Nat.zero_le _, by decide, ?_⟩
  · exact widePmm_alloc.1
  · intro i hi hlt
    rw [widePmm_get]
    exact decide_eq_false (by omega)

end Pmm

end UmbraOS
