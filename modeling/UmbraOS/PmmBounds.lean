import UmbraOS.Pmm

namespace UmbraOS

namespace Pmm

/-- Every recorded page index has a bit in the bitmap. -/
def Inside (p : Pmm) : Prop :=
  ∀ i ∈ p.touched, i < 8 * p.bitmap.size

/-- A call of `alloc` stops its scans before the end of the bitmap: a run that fits lies
ahead of the cursor, or the limit itself is within the bitmap. When the cursor stands at the
limit the first scan reads nothing and the second one starts from page 0. -/
def ScansInside (p : Pmm) (pages : Nat) : Prop :=
  pages = 0 ∨
  (p.scanLimit ≤ p.lastPageIdx ∧
    (p.lastPageIdx ≤ 8 * p.bitmap.size ∨ HasFreeRun p.bitmap pages 0 (8 * p.bitmap.size))) ∨
  (p.lastPageIdx < p.scanLimit ∧
    (p.scanLimit ≤ 8 * p.bitmap.size ∨
      HasFreeRun p.bitmap pages p.lastPageIdx (8 * p.bitmap.size)))

theorem Scanned.size {p : Pmm} {pages limit : Nat} {r : Nat × Pmm}
    (h : Scanned p pages limit r) : r.2.bitmap.size = p.bitmap.size := by
  cases h <;> simp

theorem Scanned.reads_iff {p : Pmm} {pages limit : Nat} {r : Nat × Pmm}
    (h : Scanned p pages limit r) (i : Nat) :
    i ∈ r.2.touched ↔ i ∈ p.touched ∨ p.lastPageIdx ≤ i ∧ i < r.2.lastPageIdx := by
  cases h with
  | found _ _ _ _ _ _ reads => exact reads i
  | missing _ _ reads => exact reads i

theorem Scanned.inside_iff_cursor {p : Pmm} {pages limit : Nat} {r : Nat × Pmm}
    (h : Scanned p pages limit r) (hc : p.lastPageIdx < r.2.lastPageIdx) :
    r.2.Inside ↔ p.Inside ∧ r.2.lastPageIdx ≤ 8 * p.bitmap.size := by
  unfold Inside
  rw [h.size]
  constructor
  · intro hi
    refine ⟨fun i hm => hi i ((h.reads_iff i).mpr (Or.inl hm)), ?_⟩
    have := hi (r.2.lastPageIdx - 1) ((h.reads_iff _).mpr (Or.inr ⟨by omega, by omega⟩))
    omega
  · rintro ⟨hp, hb⟩ i hm
    rcases (h.reads_iff i).mp hm with hm | ⟨_, hl⟩
    · exact hp i hm
    · omega

/-- A scan stays inside the bitmap when a run that fits stops it, or its limit does. -/
theorem Scanned.cursor_le_iff {p : Pmm} {pages limit bits : Nat} {r : Nat × Pmm}
    (h : Scanned p pages limit r) :
    r.2.lastPageIdx ≤ bits ↔ limit ≤ bits ∨ HasFreeRun p.bitmap pages p.lastPageIdx bits := by
  cases h with
  | found page touched start stop clear first reads =>
    simp only
    constructor
    · intro hb
      exact Or.inr ⟨page, start, hb, clear⟩
    · rintro (hb | ⟨other, hs, he, hc⟩)
      · omega
      · by_contra hb
        exact first ⟨other, hs, by omega, hc⟩
  | missing touched none reads =>
    simp only
    constructor
    · exact Or.inl
    · rintro (hb | ⟨page, hs, he, hc⟩)
      · exact hb
      · by_contra hb
        exact none ⟨page, hs, by omega, hc⟩

theorem Scanned.cursor_advances {p : Pmm} {pages limit : Nat} {r : Nat × Pmm} (hp : 0 < pages)
    (h : Scanned p pages limit r) (hl : p.lastPageIdx < limit) :
    p.lastPageIdx < r.2.lastPageIdx := by
  cases h with
  | found page touched start => simp only; omega
  | missing => exact hl

theorem Scanned.inside_iff {p : Pmm} {pages limit : Nat} {r : Nat × Pmm} (hp : 0 < pages)
    (h : Scanned p pages limit r) (hl : p.lastPageIdx < limit) :
    r.2.Inside ↔ p.Inside ∧ (limit ≤ 8 * p.bitmap.size ∨
      HasFreeRun p.bitmap pages p.lastPageIdx (8 * p.bitmap.size)) := by
  rw [h.inside_iff_cursor (h.cursor_advances hp hl), h.cursor_le_iff]

theorem innerAlloc_size (p : Pmm) {pages : Nat} (limit : Nat) (hp : 0 < pages) :
    (p.innerAlloc pages limit).2.bitmap.size = p.bitmap.size := by
  rcases Nat.lt_or_ge p.lastPageIdx limit with hl | hl
  · exact (innerAlloc_scanned hp (Nat.le_of_lt hl)).size
  · rw [innerAlloc_of_le pages hl]

theorem alloc_size (p : Pmm) (pages : Nat) : (p.alloc pages).2.bitmap.size = p.bitmap.size := by
  rcases Nat.eq_zero_or_pos pages with rfl | hp
  · rfl
  · rw [alloc_of_pos p hp]
    split
    next => rw [innerAlloc_size _ _ hp, innerAlloc_size _ _ hp]
    next => exact innerAlloc_size _ _ hp

theorem alloc_inside_iff_ahead {p : Pmm} {pages : Nat} (hp : 0 < pages)
    (hl : p.lastPageIdx < p.scanLimit) :
    (p.alloc pages).2.Inside ↔ p.Inside ∧ (p.scanLimit ≤ 8 * p.bitmap.size ∨
      HasFreeRun p.bitmap pages p.lastPageIdx (8 * p.bitmap.size)) := by
  have hfirst := innerAlloc_scanned hp (Nat.le_of_lt hl)
  have hadv := hfirst.cursor_advances hp hl
  rw [← hfirst.inside_iff hp hl, alloc_of_pos p hp]
  have hcur := hfirst.inside_iff_cursor hadv
  rw [← hfirst.size] at hcur
  generalize p.innerAlloc pages p.scanLimit = first at hadv hcur ⊢
  by_cases hr : first.1 = 0
  · -- the second scan runs below the cursor of the first one
    have hsecond : Scanned ⟨first.2.bitmap, 0, first.2.touched⟩ pages first.2.lastPageIdx _ :=
      innerAlloc_scanned hp (Nat.zero_le _)
    rw [if_pos hr, hsecond.inside_iff hp (by simp only; omega)]
    constructor
    · exact fun h => h.1
    · exact fun h => ⟨h, Or.inl (hcur.mp h).2⟩
  · rw [if_neg hr]

theorem alloc_inside_iff_at_limit {p : Pmm} {pages : Nat} (hp : 0 < pages)
    (hl : p.scanLimit ≤ p.lastPageIdx) :
    (p.alloc pages).2.Inside ↔ p.Inside ∧ (p.lastPageIdx ≤ 8 * p.bitmap.size ∨
      HasFreeRun p.bitmap pages 0 (8 * p.bitmap.size)) := by
  rw [alloc_of_pos p hp, innerAlloc_of_le pages hl, if_pos rfl]
  rcases Nat.eq_zero_or_pos p.lastPageIdx with hz | hz
  · rw [hz, innerAlloc_of_le pages (Nat.zero_le _)]
    simp [Inside]
  · have hsecond : Scanned ⟨p.bitmap, 0, p.touched⟩ pages p.lastPageIdx _ :=
      innerAlloc_scanned hp (Nat.zero_le _)
    exact hsecond.inside_iff hp hz

/-- The scans of one call stay inside the bitmap exactly under `ScansInside`. -/
theorem alloc_inside_iff (p : Pmm) (pages : Nat) :
    (p.alloc pages).2.Inside ↔ p.Inside ∧ p.ScansInside pages := by
  rcases Nat.eq_zero_or_pos pages with rfl | hp
  · simp [alloc, ScansInside]
  · have hne : pages ≠ 0 := Nat.ne_of_gt hp
    rcases Nat.lt_or_ge p.lastPageIdx p.scanLimit with hl | hl
    · have hn := Nat.not_le.mpr hl
      rw [alloc_inside_iff_ahead hp hl]
      simp only [ScansInside, hne, hn, hl, true_and, false_and, false_or]
    · have hn := Nat.not_lt.mpr hl
      rw [alloc_inside_iff_at_limit hp hl]
      simp only [ScansInside, hne, hn, ge_iff_le.mp hl, true_and, false_and, false_or, or_false]

inductive Op
  | alloc (pages : Nat)
  | free (addr pages : Nat)

def Op.apply (p : Pmm) : Op → Pmm
  | .alloc pages => (p.alloc pages).2
  | .free addr pages => p.free addr pages

/-- Every `alloc` of a sequence of calls scans inside the bitmap from the state it finds. -/
def ScansInsideAlong : Pmm → List Op → Prop
  | _, [] => True
  | p, op :: ops => (∀ pages, op = .alloc pages → p.ScansInside pages) ∧
      ScansInsideAlong (op.apply p) ops

theorem apply_inside_iff (p : Pmm) (op : Op) :
    (op.apply p).Inside ↔ p.Inside ∧ ∀ pages, op = .alloc pages → p.ScansInside pages := by
  cases op with
  | alloc pages => simp [Op.apply, alloc_inside_iff]
  | free addr pages => simp [Op.apply, Inside, free]

theorem apply_size (p : Pmm) (op : Op) : (op.apply p).bitmap.size = p.bitmap.size := by
  cases op with
  | alloc pages => exact alloc_size p pages
  | free addr pages => simp [Op.apply, free]

theorem foldl_size (p : Pmm) (ops : List Op) :
    (ops.foldl Op.apply p).bitmap.size = p.bitmap.size := by
  induction ops generalizing p with
  | nil => rfl
  | cons op ops ih => exact (ih _).trans (apply_size p op)

theorem foldl_inside_iff (p : Pmm) (ops : List Op) :
    (ops.foldl Op.apply p).Inside ↔ p.Inside ∧ p.ScansInsideAlong ops := by
  induction ops generalizing p with
  | nil => simp [ScansInsideAlong]
  | cons op ops ih =>
    rw [List.foldl_cons, ih, apply_inside_iff, and_assoc]
    rfl

/-- Over any sequence of calls, from any bitmap and cursor, every page index that the scans
touch lies below `8 * size` exactly when each call scans inside the bitmap. -/
theorem pmm_touches_inside_iff (bitmap : Bitmap) (last : Nat) (ops : List Op) :
    (∀ i ∈ (ops.foldl Op.apply ⟨bitmap, last, []⟩).touched, i < 8 * bitmap.size) ↔
      ScansInsideAlong ⟨bitmap, last, []⟩ ops := by
  have h := foldl_inside_iff ⟨bitmap, last, []⟩ ops
  rw [Inside, foldl_size] at h
  rw [h]
  simp [Inside]

/-- The manager of a machine whose 32768 pages are all in use. -/
def fullPmm : Pmm := ⟨⟨fun _ => 255#8, 4096⟩, 0, []⟩

theorem fullPmm_get (i : Nat) : fullPmm.bitmap.get i = true := by
  have hfull : ∀ k < 8, (255#8).getLsbD k = true := by decide
  rw [Bitmap.get_eq_getLsbD]
  exact hfull _ (Nat.mod_lt _ (by decide))

theorem fullPmm_leaves_bitmap :
    ∃ i ∈ (fullPmm.alloc 1).2.touched, ¬i < 8 * fullPmm.bitmap.size := by
  by_contra h
  push Not at h
  have hin : (fullPmm.alloc 1).2.Inside := by
    intro i hi
    rw [alloc_size]
    exact h i hi
  rcases ((alloc_inside_iff fullPmm 1).mp hin).2 with h1 | ⟨hc, _⟩ | ⟨_, hb | ⟨page, _, _, hf⟩⟩
  · cases h1
  · exact absurd hc (by decide)
  · exact absurd hb (by decide)
  · have := hf page (le_refl _) (by omega)
    rw [fullPmm_get] at this
    cases this

end Pmm

end UmbraOS
