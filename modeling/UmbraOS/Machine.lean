import UmbraOS.ByteMemory
import UmbraOS.PageSource
import UmbraOS.Words

namespace UmbraOS

/-- Memory as the kernel sees it through the higher-half direct map, with the page
allocator. `refused` is not in the source: it records that some request was answered by a
null pointer. -/
structure Machine (P : PageSource pageSize) where
  mem : Memory
  pmm : P.State
  hhdm : Nat
  refused : Bool

namespace Machine

variable {P : PageSource pageSize}

def physToVirt (m : Machine P) (addr : Nat) : Nat := addr + m.hhdm

def virtToPhys (m : Machine P) (addr : Nat) : Nat := addr - m.hhdm

/-- `Pmm::alloc`. -/
def alloc (m : Machine P) (pages : Nat) : Nat × Machine P :=
  if pages = 0 then (0, m)
  else
    let r := P.alloc pages m.pmm
    (r.1, { m with pmm := r.2, refused := m.refused || r.1 == 0 })

/-- `Pmm::calloc`: the pages of a run are zeroed. -/
def calloc (m : Machine P) (pages : Nat) : Nat × Machine P :=
  if pages = 0 then (0, m)
  else
    let (ret, m) := m.alloc pages
    if ret ≠ 0 then
      (ret, { m with mem := m.mem.fill (m.physToVirt ret) (u64 (pages * pageSize)) 0#8 })
    else (0, m)

/-- `Pmm::free`. -/
def free (m : Machine P) (addr pages : Nat) : Machine P :=
  { m with pmm := P.free addr pages m.pmm }

/-- The direct map covers every page the allocator hands out, and pointers and page table
entries can hold the addresses. -/
structure Ok (m : Machine P) : Prop where
  pmm : P.Ok m.pmm
  aligned : 4096 ∣ m.hhdm
  window : m.hhdm + P.bound * pageSize ≤ 2 ^ 64
  bound : P.bound ≤ 2 ^ 40

def Used (m : Machine P) (page : Nat) : Prop := P.used m.pmm page

/-- The address at which the kernel sees a page. -/
def pageAt (m : Machine P) (page : Nat) : Nat := page * pageSize + m.hhdm

/-- What `alloc` of at least one page does: it refuses, or it counts a run of unused pages as
used. -/
inductive Alloc (m : Machine P) (pages : Nat) : Nat × Machine P → Prop
  | refused (pmm : P.State) (ok : P.Ok pmm) (used : ∀ i, P.used pmm i ↔ m.Used i) :
      Alloc m pages (0, ⟨m.mem, pmm, m.hhdm, true⟩)
  | run (page : Nat) (pmm : P.State) (ok : P.Ok pmm) (positive : 0 < page)
      (inside : page + pages ≤ P.bound)
      (fresh : ∀ i, page ≤ i → i < page + pages → ¬m.Used i)
      (used : ∀ i, P.used pmm i ↔ m.Used i ∨ page ≤ i ∧ i < page + pages) :
      Alloc m pages (page * pageSize, ⟨m.mem, pmm, m.hhdm, m.refused⟩)

/-- What `calloc` of at least one page does: it refuses, or it zeroes a run of unused pages
and counts them as used. -/
inductive Calloc (m : Machine P) (pages : Nat) : Nat × Machine P → Prop
  | refused (pmm : P.State) (ok : P.Ok pmm) (used : ∀ i, P.used pmm i ↔ m.Used i) :
      Calloc m pages (0, ⟨m.mem, pmm, m.hhdm, true⟩)
  | run (page : Nat) (pmm : P.State) (ok : P.Ok pmm) (positive : 0 < page)
      (inside : page + pages ≤ P.bound)
      (fresh : ∀ i, page ≤ i → i < page + pages → ¬m.Used i)
      (used : ∀ i, P.used pmm i ↔ m.Used i ∨ page ≤ i ∧ i < page + pages) :
      Calloc m pages (page * pageSize,
        ⟨m.mem.fill (m.pageAt page) (pages * pageSize) 0#8, pmm, m.hhdm, m.refused⟩)

theorem alloc_of_pos (m : Machine P) {pages : Nat} (h : 0 < pages) :
    m.alloc pages = ((P.alloc pages m.pmm).1,
      ⟨m.mem, (P.alloc pages m.pmm).2, m.hhdm, m.refused || (P.alloc pages m.pmm).1 == 0⟩) := by
  rw [alloc, if_neg (Nat.ne_of_gt h)]

/-- A refusal stays recorded. -/
theorem alloc_refused {m : Machine P} (h : m.refused = true) (pages : Nat) :
    (m.alloc pages).2.refused = true := by
  simp only [alloc]
  split
  · exact h
  · simp only [h, Bool.true_or]

theorem calloc_refused {m : Machine P} (h : m.refused = true) (pages : Nat) :
    (m.calloc pages).2.refused = true := by
  have ha := alloc_refused h pages
  simp only [calloc]
  split
  · exact h
  · split
    · exact ha
    · exact ha

theorem alloc_spec {m : Machine P} {pages : Nat} (hm : m.Ok) (h : 0 < pages) :
    Alloc m pages (m.alloc pages) := by
  rw [alloc_of_pos m h]
  by_cases hz : (P.alloc pages m.pmm).1 = 0
  · have hu := P.alloc_refused pages m.pmm hm.pmm hz
    rw [hz, beq_self_eq_true, Bool.or_true]
    exact Alloc.refused _ (P.alloc_ok pages m.pmm hm.pmm) hu
  · obtain ⟨page, haddr, hin, hfresh, hused⟩ := P.alloc_page pages m.pmm hm.pmm hz
    have hpos : 0 < page := by
      by_contra hn
      rw [haddr, show page = 0 by omega, Nat.zero_mul] at hz
      exact hz rfl
    rw [beq_eq_false_iff_ne.mpr hz, Bool.or_false, haddr]
    exact Alloc.run page _ (P.alloc_ok pages m.pmm hm.pmm) hpos hin hfresh hused

theorem calloc_spec {m : Machine P} {pages : Nat} (hm : m.Ok) (h : 0 < pages) :
    Calloc m pages (m.calloc pages) := by
  have ha := alloc_spec hm h
  simp only [calloc, if_neg (Nat.ne_of_gt h)]
  generalize m.alloc pages = r at ha ⊢
  cases ha with
  | refused pmm ok used => exact Calloc.refused pmm ok used
  | run page pmm ok positive inside fresh used =>
    have hb := hm.bound
    have hne : page * pageSize ≠ 0 := Nat.mul_ne_zero (by omega) (by decide)
    have hsize : u64 (pages * pageSize) = pages * pageSize :=
      u64_of_lt (by simp only [pageSize]; omega)
    simp only [if_pos hne, hsize]
    exact Calloc.run page pmm ok positive inside fresh used

theorem free_ok {m : Machine P} {page pages : Nat} (hm : m.Ok) (hp : 0 < page)
    (hb : page + pages ≤ P.bound) : (m.free (page * pageSize) pages).Ok :=
  ⟨P.free_ok page pages m.pmm hm.pmm hp hb, hm.aligned, hm.window, hm.bound⟩

theorem free_used {m : Machine P} {page pages : Nat} (hm : m.Ok) (hp : 0 < page)
    (hb : page + pages ≤ P.bound) (i : Nat) :
    (m.free (page * pageSize) pages).Used i ↔ m.Used i ∧ ¬(page ≤ i ∧ i < page + pages) :=
  P.free_used page pages m.pmm hm.pmm hp hb i

end Machine

end UmbraOS
