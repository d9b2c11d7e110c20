import UmbraOS.Bitmap
import UmbraOS.Words
import Mathlib.Data.List.Range

namespace UmbraOS

/-- The static state of the physical memory manager. `touched` is not in the source: it
records the page indices `inner_alloc` reads or writes. -/
structure Pmm where
  bitmap : Bitmap
  lastPageIdx : Nat
  touched : List Nat

namespace Pmm

/-- Iteration of the scan loop; `acc` counts the clear bits just before the cursor. -/
def innerAllocLoop (pages limit : Nat) : Nat → Nat → Pmm → Nat × Pmm
  | 0, _, p => (0, p)
  | fuel + 1, acc, p =>
    if p.lastPageIdx < limit then
      let idx := p.lastPageIdx
      let p := { p with lastPageIdx := idx + 1, touched := idx :: p.touched }
      if p.bitmap.get idx then
        innerAllocLoop pages limit fuel 0 p
      else if acc + 1 = pages then
        let page := p.lastPageIdx - pages
        (u64 (page * pageSize), { p with
          bitmap := p.bitmap.setRun page true pages
          touched := List.range' page pages ++ p.touched })
      else
        innerAllocLoop pages limit fuel (acc + 1) p
    else (0, p)

/-- A physical address, or 0 for the null pointer. -/
def innerAlloc (p : Pmm) (pages limit : Nat) : Nat × Pmm :=
  innerAllocLoop pages limit (limit - p.lastPageIdx) 0 p

/-- The bound of the first scan: the byte size of the bitmap times the page size. -/
def scanLimit (p : Pmm) : Nat := u64 (p.bitmap.size * pageSize)

def alloc (p : Pmm) (pages : Nat) : Nat × Pmm :=
  if pages = 0 then (0, p)
  else
    let first := p.innerAlloc pages p.scanLimit
    if first.1 = 0 then
      let last := first.2.lastPageIdx
      ({ first.2 with lastPageIdx := 0 }).innerAlloc pages last
    else first

/-- The bound of the loop is a 64-bit sum, so the number of turns is taken from it. -/
def free (p : Pmm) (addr pages : Nat) : Pmm :=
  let pageIdx := addr / pageSize
  { p with bitmap := p.bitmap.setRun pageIdx false (u64 (pageIdx + pages) - pageIdx) }

/-- `pages` consecutive clear bits from `page`. -/
def FreeRun (b : Bitmap) (page pages : Nat) : Prop :=
  ∀ i, page ≤ i → i < page + pages → b.get i = false

/-- A run of clear bits lies wholly between two page indices. -/
def HasFreeRun (b : Bitmap) (pages start stop : Nat) : Prop :=
  ∃ page, start ≤ page ∧ page + pages ≤ stop ∧ FreeRun b page pages

/-- What a scan from the cursor up to `limit` does: it takes the first run that fits, or it
stops at `limit` and finds none. Either way it touches what lies before its new cursor. -/
inductive Scanned (p : Pmm) (pages limit : Nat) : Nat × Pmm → Prop
  | found (page : Nat) (touched : List Nat) (start : p.lastPageIdx ≤ page)
      (stop : page + pages ≤ limit) (clear : FreeRun p.bitmap page pages)
      (first : ¬HasFreeRun p.bitmap pages p.lastPageIdx (page + pages - 1))
      (reads : ∀ i, i ∈ touched ↔ i ∈ p.touched ∨ p.lastPageIdx ≤ i ∧ i < page + pages) :
      Scanned p pages limit
        (u64 (page * pageSize), ⟨p.bitmap.setRun page true pages, page + pages, touched⟩)
  | missing (touched : List Nat) (none : ¬HasFreeRun p.bitmap pages p.lastPageIdx limit)
      (reads : ∀ i, i ∈ touched ↔ i ∈ p.touched ∨ p.lastPageIdx ≤ i ∧ i < limit) :
      Scanned p pages limit (0, ⟨p.bitmap, limit, touched⟩)

/-- The state of a scan that began at page `start`: the `acc` bits before the cursor are
clear, no run that fits ends at or before the cursor, and the bits read were recorded. -/
structure Scanning (p : Pmm) (pages start acc : Nat) (touched : List Nat) (q : Pmm) : Prop where
  bitmap : q.bitmap = p.bitmap
  room : start + acc ≤ q.lastPageIdx
  short : acc < pages
  clear : FreeRun p.bitmap (q.lastPageIdx - acc) acc
  longest : ∀ page, start ≤ page → FreeRun p.bitmap page (q.lastPageIdx - page) →
    q.lastPageIdx ≤ page + acc
  none : ¬HasFreeRun p.bitmap pages start q.lastPageIdx
  reads : ∀ i, i ∈ q.touched ↔ i ∈ touched ∨ start ≤ i ∧ i < q.lastPageIdx

theorem Scanning.begin {p : Pmm} {pages : Nat} (h : 0 < pages) :
    Scanning p pages p.lastPageIdx 0 p.touched p where
  bitmap := rfl
  room := le_refl _
  short := h
  clear := by intro i hi hl; omega
  longest := by intro page hp _; omega
  none := by
    rintro ⟨page, hs, he, _⟩
    omega
  reads := by
    intro i
    constructor
    · exact Or.inl
    · rintro (hi | hi)
      · exact hi
      · omega

theorem Scanning.used {p q : Pmm} {pages start acc : Nat} {touched : List Nat}
    (h : Scanning p pages start acc touched q) (hu : q.bitmap.get q.lastPageIdx = true) :
    Scanning p pages start 0 touched
      { q with lastPageIdx := q.lastPageIdx + 1, touched := q.lastPageIdx :: q.touched } where
  bitmap := h.bitmap
  room := by have := h.room; simp only; omega
  short := by have := h.short; omega
  clear := by intro i hi hl; simp only at hi hl; omega
  longest := by
    intro page hs hc
    simp only at hc ⊢
    by_contra hlt
    have hbit := hc q.lastPageIdx (by omega) (by omega)
    rw [← h.bitmap, hu] at hbit
    cases hbit
  none := by
    rintro ⟨page, hs, he, hc⟩
    simp only at he
    by_cases hle : page + pages ≤ q.lastPageIdx
    · exact h.none ⟨page, hs, hle, hc⟩
    · have := h.short
      have hbit := hc q.lastPageIdx (by omega) (by omega)
      rw [← h.bitmap, hu] at hbit
      cases hbit
  reads := by
    intro i
    have := h.room
    simp only [List.mem_cons, h.reads i]
    by_cases hm : i ∈ touched <;> simp only [hm, true_or, or_true, false_or]
    omega

theorem Scanning.free {p q : Pmm} {pages start acc : Nat} {touched : List Nat}
    (h : Scanning p pages start acc touched q) (hf : q.bitmap.get q.lastPageIdx = false)
    (hs : acc + 1 < pages) :
    Scanning p pages start (acc + 1) touched
      { q with lastPageIdx := q.lastPageIdx + 1, touched := q.lastPageIdx :: q.touched } where
  bitmap := h.bitmap
  room := by have := h.room; simp only; omega
  short := hs
  clear := by
    have := h.room
    intro i hi hl
    simp only at hi hl
    rcases Nat.lt_or_eq_of_le (show i ≤ q.lastPageIdx by omega) with hlt | rfl
    · exact h.clear i (by omega) (by omega)
    · rw [← h.bitmap, hf]
  longest := by
    intro page hp hc
    simp only at hc ⊢
    rcases Nat.lt_or_ge q.lastPageIdx page with hlt | hge
    · omega
    · have := h.longest page hp fun i hi hl => hc i hi (by omega)
      omega
  none := by
    rintro ⟨page, hp, he, hc⟩
    simp only at he
    by_cases hle : page + pages ≤ q.lastPageIdx
    · exact h.none ⟨page, hp, hle, hc⟩
    · have := h.longest page hp fun i hi hl => hc i hi (by omega)
      omega
  reads := by
    intro i
    have := h.room
    simp only [List.mem_cons, h.reads i]
    by_cases hm : i ∈ touched <;> simp only [hm, true_or, or_true, false_or]
    omega

/-- A clear bit that completes a run ends the scan with the first run that fits. -/
theorem Scanning.complete {p q : Pmm} {pages acc limit : Nat}
    (h : Scanning p pages p.lastPageIdx acc p.touched q) (hl : q.lastPageIdx < limit)
    (hf : q.bitmap.get q.lastPageIdx = false) (hs : acc + 1 = pages) :
    Scanned p pages limit
      (u64 ((q.lastPageIdx + 1 - pages) * pageSize),
        ⟨q.bitmap.setRun (q.lastPageIdx + 1 - pages) true pages, q.lastPageIdx + 1,
          List.range' (q.lastPageIdx + 1 - pages) pages ++ q.lastPageIdx :: q.touched⟩) := by
  have hroom := h.room
  obtain ⟨page, hpage⟩ : ∃ page, q.lastPageIdx + 1 = page + pages :=
    ⟨q.lastPageIdx + 1 - pages, by omega⟩
  rw [show q.lastPageIdx + 1 - pages = page by omega, hpage, h.bitmap]
  refine Scanned.found page _ (by omega) (by omega) ?_ ?_ ?_
  · intro i hi hlt
    rcases Nat.lt_or_eq_of_le (show i ≤ q.lastPageIdx by omega) with hlt | rfl
    · exact h.clear i (by omega) (by omega)
    · rw [← h.bitmap, hf]
  · rw [show page + pages - 1 = q.lastPageIdx by omega]
    exact h.none
  · intro i
    simp only [List.mem_append, List.mem_range'_1, List.mem_cons, h.reads i]
    by_cases hm : i ∈ p.touched <;> simp only [hm, true_or, or_true, false_or]
    omega

theorem innerAllocLoop_scanned {p : Pmm} {pages limit : Nat} (fuel : Nat) {acc : Nat} {q : Pmm}
    (h : Scanning p pages p.lastPageIdx acc p.touched q) (hf : q.lastPageIdx + fuel = limit) :
    Scanned p pages limit (innerAllocLoop pages limit fuel acc q) := by
  induction fuel generalizing acc q with
  | zero =>
    have hq : q = ⟨p.bitmap, limit, q.touched⟩ := by
      rw [← h.bitmap, ← hf]
      rfl
    have hl : q.lastPageIdx = limit := by omega
    rw [innerAllocLoop, hq]
    exact Scanned.missing _ (hl ▸ h.none) fun i => by rw [h.reads i, hl]
  | succ fuel ih =>
    have hl : q.lastPageIdx < limit := by omega
    simp only [innerAllocLoop, hl, if_true]
    cases hb : q.bitmap.get q.lastPageIdx with
    | true =>
      simp only [if_true]
      exact ih (h.used hb) (by simp only; omega)
    | false =>
      simp only [Bool.false_eq_true, if_false]
      by_cases hs : acc + 1 = pages
      · rw [if_pos hs]
        exact h.complete hl hb hs
      · rw [if_neg hs]
        have := h.short
        exact ih (h.free hb (by omega)) (by simp only; omega)

/-- The scan finds the first run of clear bits between the cursor and the limit. -/
theorem innerAlloc_scanned {p : Pmm} {pages limit : Nat} (hp : 0 < pages)
    (hl : p.lastPageIdx ≤ limit) : Scanned p pages limit (p.innerAlloc pages limit) :=
  innerAllocLoop_scanned _ (Scanning.begin hp) (by omega)

theorem alloc_of_pos (p : Pmm) {pages : Nat} (h : 0 < pages) :
    p.alloc pages =
      if (p.innerAlloc pages p.scanLimit).1 = 0 then
        innerAlloc ⟨(p.innerAlloc pages p.scanLimit).2.bitmap, 0,
          (p.innerAlloc pages p.scanLimit).2.touched⟩ pages
          (p.innerAlloc pages p.scanLimit).2.lastPageIdx
      else p.innerAlloc pages p.scanLimit := by
  rw [alloc, if_neg (Nat.ne_of_gt h)]

theorem innerAlloc_of_le {p : Pmm} {limit : Nat} (pages : Nat) (h : limit ≤ p.lastPageIdx) :
    p.innerAlloc pages limit = (0, p) := by
  rw [innerAlloc, show limit - p.lastPageIdx = 0 by omega]
  rfl

end Pmm

end UmbraOS
