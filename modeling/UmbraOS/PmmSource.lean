import UmbraOS.Machine
import UmbraOS.PmmRuns

namespace UmbraOS

namespace Pmm

/-- What the manager of a bitmap of `size` bytes keeps. -/
structure Managed (size : Nat) (p : Pmm) : Prop where
  size : p.bitmap.size = size
  zero : p.bitmap.get 0 = true
  cursor : p.lastPageIdx ≤ p.scanLimit

theorem Managed.scanLimit {size : Nat} {p : Pmm} (h : Managed size p) :
    p.scanLimit = u64 (size * pageSize) := by
  rw [Pmm.scanLimit, h.size]

theorem Managed.alloc_cases {size n : Nat} {p : Pmm} (h : Managed size p)
    (hs : u64 (size * pageSize) ≤ 2 ^ 52) (hn : 0 < n) : Allocated p n (p.alloc n) :=
  alloc_allocated hn h.zero h.cursor (h.scanLimit ▸ hs)

theorem Managed.alloc {size : Nat} {p : Pmm} (h : Managed size p)
    (hs : u64 (size * pageSize) ≤ 2 ^ 52) (n : Nat) : Managed size (p.alloc n).2 := by
  rcases Nat.eq_zero_or_pos n with rfl | hn
  · exact h
  · have ha := h.alloc_cases hs hn
    generalize p.alloc n = r at ha ⊢
    cases ha with
    | full cursor touched none bound => exact ⟨h.size, h.zero, bound⟩
    | run page cursor touched positive stop clear bound =>
      refine ⟨?_, ?_, ?_⟩
      · rw [Bitmap.setRun_size, h.size]
      · rw [Bitmap.get_setRun, if_neg (by omega), h.zero]
      · rw [Pmm.scanLimit, Bitmap.setRun_size]
        exact bound

theorem Managed.alloc_page {size n : Nat} {p : Pmm} (h : Managed size p)
    (hs : u64 (size * pageSize) ≤ 2 ^ 52) (hr : (p.alloc n).1 ≠ 0) :
    ∃ page, (p.alloc n).1 = page * pageSize ∧ page + n ≤ u64 (size * pageSize) ∧
      (∀ i, page ≤ i → i < page + n → ¬p.bitmap.get i = true) ∧
      ∀ i, (p.alloc n).2.bitmap.get i = true ↔
        p.bitmap.get i = true ∨ page ≤ i ∧ i < page + n := by
  rcases Nat.eq_zero_or_pos n with rfl | hn
  · exact absurd rfl hr
  · have ha := h.alloc_cases hs hn
    generalize p.alloc n = r at ha hr ⊢
    cases ha with
    | full => exact absurd rfl hr
    | run page cursor touched positive stop clear bound =>
      refine ⟨page, rfl, h.scanLimit ▸ stop, ?_, ?_⟩
      · intro i hi hl hu
        rw [clear i hi hl] at hu
        cases hu
      · intro i
        rw [Bitmap.get_setRun]
        split
        next hi => exact ⟨fun _ => Or.inr hi, fun _ => rfl⟩
        next hi => exact ⟨Or.inl, fun hu => hu.resolve_right hi⟩

theorem Managed.alloc_refused {size n : Nat} {p : Pmm} (h : Managed size p)
    (hs : u64 (size * pageSize) ≤ 2 ^ 52) (hr : (p.alloc n).1 = 0) (i : Nat) :
    (p.alloc n).2.bitmap.get i = true ↔ p.bitmap.get i = true := by
  have ha := alloc_allocatesRun n h.zero h.cursor (h.scanLimit ▸ hs)
  rw [ha.2 hr i]

theorem free_get {page n bound : Nat} (p : Pmm) (hb : bound ≤ 2 ^ 52) (hp : page + n ≤ bound)
    (i : Nat) : (p.free (page * pageSize) n).bitmap.get i =
      if page ≤ i ∧ i < page + n then false else p.bitmap.get i := by
  have hidx : page * pageSize / pageSize = page := by simp [pageSize]
  simp only [free, hidx, Bitmap.get_setRun]
  rw [u64_of_lt (by omega), Nat.add_sub_cancel_left]

theorem Managed.free {size page n : Nat} {p : Pmm} (h : Managed size p)
    (hs : u64 (size * pageSize) ≤ 2 ^ 52) (hp : 0 < page)
    (hb : page + n ≤ u64 (size * pageSize)) : Managed size (p.free (page * pageSize) n) := by
  refine ⟨?_, ?_, ?_⟩
  · rw [Pmm.free, Bitmap.setRun_size, h.size]
  · rw [free_get p hs hb, if_neg (by omega), h.zero]
  · rw [free_scanLimit]
    exact h.cursor

theorem free_used {page n bound : Nat} (p : Pmm) (hb : bound ≤ 2 ^ 52) (hp : page + n ≤ bound)
    (i : Nat) : (p.free (page * pageSize) n).bitmap.get i = true ↔
      p.bitmap.get i = true ∧ ¬(page ≤ i ∧ i < page + n) := by
  rw [free_get p hb hp]
  split
  next hi => exact ⟨fun h => Bool.noConfusion h, fun h => absurd hi h.2⟩
  next hi => exact ⟨fun h => ⟨h, hi⟩, fun h => h.1⟩

/-- The physical memory manager as a page allocator. -/
def source (size : Nat) (hs : u64 (size * pageSize) ≤ 2 ^ 52) : PageSource pageSize where
  State := Pmm
  alloc n p := p.alloc n
  free addr n p := p.free addr n
  Ok := Managed size
  used p i := p.bitmap.get i = true
  bound := u64 (size * pageSize)
  alloc_ok n _ h := h.alloc hs n
  alloc_page _ _ h hr := h.alloc_page hs hr
  alloc_refused _ _ h hr := h.alloc_refused hs hr
  free_ok _ _ _ h hp hb := h.free hs hp hb
  free_used _ _ p _ _ hb i := free_used p hs hb i

theorem source_complete (size : Nat) (hs : u64 (size * pageSize) ≤ 2 ^ 52) :
    (source size hs).Complete := by
  intro n p hp hn hr page hpage
  have ha := Managed.alloc_cases hp hs hn
  have hr' : (p.alloc n).1 = 0 := hr
  generalize p.alloc n = r at ha hr'
  cases ha with
  | run start cursor touched positive stop clear bound =>
    simp only [pageSize] at hr'
    omega
  | full cursor touched none bound =>
    by_contra hno
    refine none ⟨page, Nat.zero_le _, ?_, fun i hi hl => ?_⟩
    · rw [hp.scanLimit]
      exact hpage
    · by_contra hset
      exact hno ⟨i, hi, hl, Bool.eq_true_of_not_eq_false hset⟩

end Pmm

end UmbraOS
