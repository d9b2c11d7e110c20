import UmbraOS.Vmm
import UmbraOS.RadixTree

namespace UmbraOS

theorem pteGetAddr_page {page : Nat} (h : page < 2 ^ 40) :
    pteGetAddr (BitVec.ofNat 64 (page * pageSize)) = BitVec.ofNat 64 (page * pageSize) := by
  apply BitVec.eq_of_getLsbD_eq
  intro i hi
  have hmask : (0x000ffffffffff000#64).getLsbD i = decide (12 ≤ i ∧ i < 52) := by
    revert i
    decide
  simp only [pteGetAddr, BitVec.getLsbD_and, hmask, BitVec.getLsbD_ofNat, hi, decide_true,
    Bool.true_and]
  by_cases hb : 12 ≤ i ∧ i < 52
  · simp [hb]
  · rw [decide_eq_false hb, Bool.and_false]
    rw [show page * pageSize = page * 2 ^ 12 from rfl, Nat.testBit_mul_two_pow]
    rcases Nat.lt_or_ge i 12 with hl | hl
    · simp; omega
    · have hz : page.testBit (i - 12) = false := Nat.testBit_lt_two_pow
        (Nat.lt_of_lt_of_le h (Nat.pow_le_pow_right (by omega) (by omega)))
      simp [hz]

theorem or_and (x y z : BitVec 64) : (x ||| y) &&& z = (x &&& z) ||| (y &&& z) := by
  apply BitVec.eq_of_getLsbD_eq
  intro i hi
  simp [Bool.and_or_distrib_right]

theorem pteGetAddr_or (x y : BitVec 64) :
    pteGetAddr (x ||| y) = pteGetAddr x ||| pteGetAddr y :=
  or_and x y _

/-- An entry made of a page address and flags gives the address back. -/
theorem pteGetAddr_entry {page : Nat} {flags : BitVec 64} (h : page < 2 ^ 40)
    (hf : pteGetAddr flags = 0#64) :
    pteGetAddr (BitVec.ofNat 64 (page * pageSize) ||| flags) =
      BitVec.ofNat 64 (page * pageSize) := by
  rw [pteGetAddr_or, pteGetAddr_page h, hf]
  simp

theorem present_or {x flags : BitVec 64} (h : flags &&& ptePresent ≠ 0#64) :
    (x ||| flags) &&& ptePresent ≠ 0#64 := by
  rw [or_and]
  intro hz
  exact h (BitVec.or_eq_zero_iff.mp hz).2

namespace Vmm

variable {P : PageSource pageSize}

/-- The edge of the table tree along one entry. -/
def nextTable (m : Machine P) (t : Nat) (i : Fin 512) : Option Nat :=
  if entry m t i &&& ptePresent ≠ 0#64 then
    some (m.physToVirt (pteGetAddr (entry m t i)).toNat)
  else none

/-- The table pages of an address space are pairwise distinct, and each of them is a page
that the allocator counts as used. -/
structure Tables (m : Machine P) (root : Nat) : Prop where
  distinct : Distinct (nextTable m) root 3
  owned : ∀ xs t, xs.length ≤ 3 → walk (nextTable m) root xs = some t →
    ∃ page, t = m.pageAt page ∧ m.Used page

/-- The last-level entry at the end of a path of three indices; 0 where a table is missing. -/
def leafEntry (m : Machine P) (root : Nat) (xs : List (Fin 512)) (i : Fin 512) : BitVec 64 :=
  match walk (nextTable m) root xs with
  | none => 0#64
  | some t => entry m t i

/-- A page that holds no table of the address space. -/
def NotTable (m : Machine P) (root page : Nat) : Prop :=
  ∀ xs, xs.length ≤ 3 → walk (nextTable m) root xs ≠ some (m.pageAt page)

/-- What the table walks of an address space do to the machine: tables are only added, in
pages that were not used, and no last-level entry changes. -/
structure Grows (root : Nat) (m m' : Machine P) : Prop where
  ok : m'.Ok
  tables : Tables m' root
  hhdm : m'.hhdm = m.hhdm
  keeps : ∀ xs t, xs.length ≤ 3 → walk (nextTable m) root xs = some t →
    walk (nextTable m') root xs = some t
  leaf : ∀ xs i, xs.length = 3 → leafEntry m' root xs i = leafEntry m root xs i
  used : ∀ page, m.Used page → m'.Used page
  others : ∀ page, m.Used page → NotTable m root page → NotTable m' root page ∧
    ∀ x < pageSize, m'.mem (m.pageAt page + x) = m.mem (m.pageAt page + x)
  refused : m.refused = true → m'.refused = true

theorem Grows.refl {root : Nat} {m : Machine P} (hm : m.Ok) (ht : Tables m root) :
    Grows root m m where
  ok := hm
  tables := ht
  hhdm := rfl
  keeps _ _ _ h := h
  leaf _ _ _ := rfl
  used _ h := h
  others _ _ h := ⟨h, fun _ _ => rfl⟩
  refused h := h

theorem pageAt_hhdm {m m' : Machine P} (h : m'.hhdm = m.hhdm) (page : Nat) :
    m'.pageAt page = m.pageAt page := by
  simp [Machine.pageAt, h]

theorem Grows.trans {root : Nat} {m m' m'' : Machine P} (h : Grows root m m')
    (h' : Grows root m' m'') : Grows root m m'' where
  ok := h'.ok
  tables := h'.tables
  hhdm := h'.hhdm.trans h.hhdm
  keeps xs t hx hw := h'.keeps xs t hx (h.keeps xs t hx hw)
  leaf xs i hx := (h'.leaf xs i hx).trans (h.leaf xs i hx)
  used page hu := h'.used page (h.used page hu)
  others page hu hn := by
    obtain ⟨hn', hb⟩ := h.others page hu hn
    obtain ⟨hn'', hb'⟩ := h'.others page (h.used page hu) hn'
    refine ⟨hn'', fun x hx => ?_⟩
    rw [← hb x hx, ← pageAt_hhdm h.hhdm]
    exact hb' x hx
  refused hr := h'.refused (h.refused hr)

theorem pageAt_inj {m : Machine P} {p q : Nat} (h : m.pageAt p = m.pageAt q) : p = q := by
  simp only [Machine.pageAt, pageSize] at h
  omega

theorem Tables.used_of_walk {m : Machine P} {root page : Nat} (h : Tables m root)
    {xs : List (Fin 512)} (hx : xs.length ≤ 3)
    (hw : walk (nextTable m) root xs = some (m.pageAt page)) : m.Used page := by
  obtain ⟨q, hq, hu⟩ := h.owned xs _ hx hw
  rw [pageAt_inj hq]
  exact hu

theorem entry_congr {m m' : Machine P} {page : Nat}
    (h : ∀ x < pageSize, m'.mem (m.pageAt page + x) = m.mem (m.pageAt page + x)) (i : Fin 512) :
    entry m' (m.pageAt page) i = entry m (m.pageAt page) i := by
  have hi := i.isLt
  apply Memory.load64_congr
  intro x hx hl
  have := h (x - m.pageAt page) (by simp only [pageSize]; omega)
  rwa [show m.pageAt page + (x - m.pageAt page) = x by omega] at this

/-- A word stored in a page is seen by no other page. -/
theorem store_other_page (m : Machine P) {p q : Nat} (hne : q ≠ p) (i : Fin 512) (v : BitVec 64)
    {x : Nat} (hx : x < pageSize) :
    m.mem.store64 (m.pageAt p + 8 * i) v (m.pageAt q + x) = m.mem (m.pageAt q + x) := by
  have hi := i.isLt
  apply Memory.store64_outside
  simp only [Machine.pageAt, pageSize] at hx ⊢
  omega

theorem store_other_entry (m : Machine P) (p : Nat) {i j : Fin 512} (hne : j ≠ i)
    (v : BitVec 64) :
    (m.mem.store64 (m.pageAt p + 8 * i) v).load64 (m.pageAt p + 8 * j) =
      m.mem.load64 (m.pageAt p + 8 * j) := by
  have hij : (j : Nat) ≠ i := fun h => hne (Fin.ext h)
  exact Memory.load64_store64_disjoint _ _ (by omega)

theorem fill_other_page (m : Machine P) {p q : Nat} (hne : q ≠ p) {x : Nat} (hx : x < pageSize) :
    m.mem.fill (m.pageAt p) (1 * pageSize) 0#8 (m.pageAt q + x) = m.mem (m.pageAt q + x) := by
  apply Memory.fill_outside
  simp only [Machine.pageAt, pageSize] at hx ⊢
  omega

end Vmm

end UmbraOS
