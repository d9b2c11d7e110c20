import UmbraOS.SpaceForest

namespace UmbraOS

namespace Vmm

variable {P : PageSource pageSize}

/-- The tree of a space is the same in two machines. -/
structure SameTree (root : Nat) (m m' : Machine P) : Prop where
  hhdm : m'.hhdm = m.hhdm
  walks : ∀ xs, xs.length ≤ 3 → walk (nextTable m') root xs = walk (nextTable m) root xs

namespace SameTree

variable {root : Nat} {m m' : Machine P}

theorem edge (h : SameTree root m m') (i : Fin 512) :
    nextTable m' root i = nextTable m root i := by
  rw [← walk_one, h.walks [i] (by simp), walk_one]

theorem tables (h : SameTree root m m') (ht : Tables m root)
    (hu : ∀ xs page, xs.length ≤ 3 → walk (nextTable m) root xs = some (m.pageAt page) →
      m'.Used page) : Tables m' root := by
  refine ⟨fun xs ys t hx hy hwx hwy => ?_, fun xs t hx hw => ?_⟩
  · rw [h.walks xs hx] at hwx
    rw [h.walks ys hy] at hwy
    exact ht.distinct xs ys t hx hy hwx hwy
  · rw [h.walks xs hx] at hw
    obtain ⟨page, rfl, -⟩ := ht.owned xs t hx hw
    exact ⟨page, (pageAt_hhdm h.hhdm page).symm, hu xs page hx hw⟩

theorem inside (h : SameTree root m m') (hi : Inside m root) : Inside m' root := by
  intro xs page hx hw
  rw [h.walks xs hx, pageAt_hhdm h.hhdm] at hw
  exact hi xs page hx hw

theorem own (h : SameTree root m m') {page : Nat} (hp : Own m' root page) : Own m root page := by
  obtain ⟨xs, hx, hown, hw⟩ := hp
  rw [h.walks xs hx, pageAt_hhdm h.hhdm] at hw
  exact ⟨xs, hx, hown, hw⟩

end SameTree

theorem split_kept {a b : Nat} {m m' : Machine P} (ha : SameTree a m m') (hb : SameTree b m m')
    (h : Split m a b) : Split m' a b := by
  refine ⟨fun i hi => ?_, fun page hpa hpb => h.apart page (ha.own hpa) (hb.own hpb)⟩
  rw [ha.edge, hb.edge]
  exact h.shared i hi

/-- A machine that keeps the bytes of the tables of a space keeps the tree. -/
theorem sameTree_of_tables {m m' : Machine P} {root : Nat} (hh : m'.hhdm = m.hhdm)
    (ht : Tables m root)
    (hb : ∀ xs page, xs.length ≤ 3 → walk (nextTable m) root xs = some (m.pageAt page) →
      ∀ x < pageSize, m'.mem (m.pageAt page + x) = m.mem (m.pageAt page + x)) :
    SameTree root m m' := by
  refine ⟨hh, fun xs hx => walk_kept hh ht hx fun zs page hz hw => ?_⟩
  have hlen := hz.length_le
  exact hb zs page (by omega) hw

theorem pte_of_tables {m m' : Machine P} {root : Nat} (hh : m'.hhdm = m.hhdm) (ht : Tables m root)
    (hb : ∀ xs page, xs.length ≤ 3 → walk (nextTable m) root xs = some (m.pageAt page) →
      ∀ x < pageSize, m'.mem (m.pageAt page + x) = m.mem (m.pageAt page + x)) (w : Nat) :
    pte m' root w = pte m root w := by
  have hlen : (tablePath w).length ≤ 3 := Nat.le_refl 3
  have hwalk := (sameTree_of_tables hh ht hb).walks _ hlen
  cases hq : walk (nextTable m) root (tablePath w) with
  | none => rw [pte, pte, leafEntry_of_missing (hwalk.trans hq), leafEntry_of_missing hq]
  | some t =>
    obtain ⟨page, rfl, -⟩ := ht.owned _ t hlen hq
    rw [pte, pte, leafEntry_of_walk (hwalk.trans hq), leafEntry_of_walk hq]
    exact entry_congr (hb _ page hlen hq) (offset w 12)

theorem sameTree_of_bytes {m m' : Machine P} {root : Nat} (hh : m'.hhdm = m.hhdm)
    (ht : Tables m root)
    (hb : ∀ page, m.Used page → ∀ x < pageSize,
      m'.mem (m.pageAt page + x) = m.mem (m.pageAt page + x)) : SameTree root m m' :=
  sameTree_of_tables hh ht fun _ page hx hw => hb page (ht.used_of_walk hx hw)

/-- A machine that keeps the bytes of the used pages keeps the entries of a space. -/
theorem pte_of_bytes {m m' : Machine P} {root : Nat} (hh : m'.hhdm = m.hhdm) (ht : Tables m root)
    (hb : ∀ page, m.Used page → ∀ x < pageSize,
      m'.mem (m.pageAt page + x) = m.mem (m.pageAt page + x)) (w : Nat) :
    pte m' root w = pte m root w :=
  pte_of_tables hh ht (fun _ page hx hw => hb page (ht.used_of_walk hx hw)) w

/-- The entries from 256 on, `k` of them, are those of another table. -/
structure Copied (m : Machine P) (source target k : Nat) (m' : Machine P) : Prop where
  pmm : m'.pmm = m.pmm
  hhdm : m'.hhdm = m.hhdm
  bytes : ∀ q, q ≠ target → ∀ x < pageSize, m'.mem (m.pageAt q + x) = m.mem (m.pageAt q + x)
  entries : ∀ j : Fin 512, entry m' (m.pageAt target) j =
    if 256 ≤ (j : Nat) ∧ (j : Nat) < 256 + k then entry m (m.pageAt source) j
    else entry m (m.pageAt target) j

theorem Copied.next {m m' : Machine P} {source target k : Nat} (hne : source ≠ target)
    (h : Copied m source target k m') (hk : k < 256) : Copied m source target (k + 1)
      (copyEntry (m.pageAt source) (m.pageAt target) m' (256 + k)) := by
  obtain ⟨i, hi⟩ : ∃ i : Fin 512, (i : Nat) = 256 + k := ⟨⟨256 + k, by omega⟩, rfl⟩
  have hat : m'.pageAt = m.pageAt := funext (pageAt_hhdm h.hhdm)
  have hstored : copyEntry (m.pageAt source) (m.pageAt target) m' (256 + k) =
      stored m' (m.pageAt target) i (entry m (m.pageAt source) i) := by
    have hsource : entry m' (m.pageAt source) i = entry m (m.pageAt source) i :=
      entry_congr (h.bytes source hne) i
    rw [← hsource, ← hi]
    rfl
  rw [hstored]
  generalize he : entry m (m.pageAt source) i = e
  refine ⟨h.pmm, h.hhdm, fun q hq x hx => ?_, fun j => ?_⟩
  · have hbyte := store_other_page m' hq i e hx
    rw [hat, h.bytes q hq x hx] at hbyte
    exact hbyte
  · by_cases hj : j = i
    · subst hj
      rw [stored_entry_self, if_pos (by omega), he]
    · have hval : (j : Nat) ≠ 256 + k := fun hv => hj (Fin.ext (hv.trans hi.symm))
      have hold : entry (stored m' (m.pageAt target) i e) (m.pageAt target) j =
          entry m' (m.pageAt target) j := by
        have hother : entry (stored m' (m'.pageAt target) i e) (m'.pageAt target) j =
            entry m' (m'.pageAt target) j := stored_entry_other m' e fun hji => hj hji.2
        rw [hat] at hother
        exact hother
      have hrange : (256 ≤ (j : Nat) ∧ (j : Nat) < 256 + (k + 1)) ↔
          (256 ≤ (j : Nat) ∧ (j : Nat) < 256 + k) := by omega
      rw [hold, h.entries]
      simp only [hrange]

theorem copyEntries_copied (m : Machine P) {source target : Nat} (hne : source ≠ target)
    {k : Nat} (hk : k ≤ 256) : Copied m source target k
      ((List.range' 256 k).foldl (copyEntry (m.pageAt source) (m.pageAt target)) m) := by
  induction k with
  | zero =>
    refine ⟨rfl, rfl, fun _ _ _ _ => rfl, fun j => ?_⟩
    rw [if_neg (by omega)]
    rfl
  | succ k ih =>
    rw [List.range'_concat, List.foldl_append, Nat.one_mul]
    exact (ih (by omega)).next hne (by omega)

/-- A fresh page holds the top-level table of a new space, with the higher half of the kernel's
and an empty lower half. -/
structure Created (m : Machine P) (kernel page : Nat) (m' : Machine P) : Prop where
  ok : m'.Ok
  hhdm : m'.hhdm = m.hhdm
  fresh : ¬m.Used page
  positive : 0 < page
  inside : page < P.bound
  used : ∀ i, m'.Used i ↔ m.Used i ∨ i = page
  bytes : ∀ q, q ≠ page → ∀ x < pageSize, m'.mem (m.pageAt q + x) = m.mem (m.pageAt q + x)
  upper : ∀ j : Fin 512, 256 ≤ (j : Nat) →
    nextTable m' (m.pageAt page) j = nextTable m kernel j
  lower : ∀ j : Fin 512, (j : Nat) < 256 → nextTable m' (m.pageAt page) j = none

/-- What `new_space` makes of the page it was given. -/
def spaceAt (kernel : Nat) (r : Nat × Machine P) : AddressSpace × Machine P :=
  (⟨r.2.physToVirt r.1⟩, (List.range' 256 256).foldl (copyEntry kernel (r.2.physToVirt r.1)) r.2)

theorem newSpace_eq (m : Machine P) (kernelSpace : AddressSpace) :
    newSpace m kernelSpace = spaceAt kernelSpace.pml4 (m.calloc 1) := rfl

theorem spaceAt_created {m : Machine P} {pmm : P.State} {kernel page : Nat} (hm : m.Ok)
    (hk : m.Used kernel) (ok : P.Ok pmm) (positive : 0 < page) (inside : page < P.bound)
    (fresh : ¬m.Used page) (used : ∀ i, P.used pmm i ↔ m.Used i ∨ i = page) :
    Created m (m.pageAt kernel) page (spaceAt (m.pageAt kernel) (page * pageSize,
      ⟨m.mem.fill (m.pageAt page) (1 * pageSize) 0#8, pmm, m.hhdm, m.refused⟩)).2 := by
  have hne : kernel ≠ page := by
    rintro rfl
    exact fresh hk
  obtain ⟨m1, hm1⟩ : ∃ m1 : Machine P, m1 =
      ⟨m.mem.fill (m.pageAt page) (1 * pageSize) 0#8, pmm, m.hhdm, m.refused⟩ := ⟨_, rfl⟩
  have hcopied := copyEntries_copied m1 hne (Nat.le_refl 256)
  have hat : m1.pageAt = m.pageAt := by rw [hm1]; rfl
  have hbytes : ∀ q, q ≠ page → ∀ x < pageSize,
      m1.mem (m.pageAt q + x) = m.mem (m.pageAt q + x) := by
    intro q hq x hx
    rw [hm1]
    exact fill_other_page m hq hx
  have hzero : ∀ j : Fin 512, entry m1 (m.pageAt page) j = 0#64 := by
    intro j
    have hj := j.isLt
    rw [hm1]
    exact Memory.load64_fill_zero _ (by omega) (by simp only [pageSize]; omega)
  have hpointer : m1.physToVirt (page * pageSize) = m.pageAt page := by rw [hm1]; rfl
  rw [← hm1, spaceAt, hpointer]
  rw [hat] at hcopied
  generalize (List.range' 256 256).foldl _ m1 = m' at hcopied
  have hpmm : m'.pmm = pmm := hcopied.pmm.trans (by rw [hm1])
  have hhdm : m'.hhdm = m.hhdm := hcopied.hhdm.trans (by rw [hm1])
  have hkernel : ∀ j : Fin 512, entry m1 (m.pageAt kernel) j = entry m (m.pageAt kernel) j :=
    entry_congr (hbytes kernel hne)
  refine ⟨⟨hpmm ▸ ok, hhdm ▸ hm.aligned, hhdm ▸ hm.window, hm.bound⟩, hhdm, fresh, positive,
    inside, fun i => ?_, fun q hq x hx => ?_, fun j hj => ?_, fun j hj => ?_⟩
  · rw [Machine.Used, hpmm]
    exact used i
  · rw [← hbytes q hq x hx, ← hat]
    exact hcopied.bytes q hq x hx
  · have hentry := hcopied.entries j
    have hlt := j.isLt
    rw [if_pos ⟨hj, by omega⟩, hat, hkernel] at hentry
    rw [nextTable, nextTable, hentry, Machine.physToVirt, Machine.physToVirt, hhdm]
  · have hentry := hcopied.entries j
    rw [if_neg (by omega), hat, hzero] at hentry
    rw [nextTable, hentry, if_neg (by decide)]

/-- A request for one page that some free page could serve is served. -/
theorem calloc_served (hP : P.Complete) {m : Machine P} (hm : m.Ok) {page : Nat}
    (hb : page < P.bound) (hf : ¬m.Used page) : (m.calloc 1).1 ≠ 0 := by
  intro h
  have hrefused : (P.alloc 1 m.pmm).1 = 0 := by
    by_contra hne
    simp only [Machine.calloc, Machine.alloc, if_neg Nat.one_ne_zero, ne_eq, if_pos hne] at h
    exact hne h
  obtain ⟨i, hle, hlt, hu⟩ := hP 1 m.pmm hm.pmm Nat.one_pos hrefused page hb
  have hi : i = page := by omega
  rw [hi] at hu
  exact hf hu

theorem newSpace_created {m : Machine P} {kernelSpace : AddressSpace} (hm : m.Ok)
    (ht : Tables m kernelSpace.pml4) (hserved : (m.calloc 1).1 ≠ 0) :
    ∃ page, (newSpace m kernelSpace).1.pml4 = m.pageAt page ∧
      Created m kernelSpace.pml4 page (newSpace m kernelSpace).2 := by
  obtain ⟨kernel, hkernel, hk⟩ := ht.owned [] _ (Nat.zero_le 3) rfl
  have hc := Machine.calloc_spec hm Nat.one_pos
  rw [newSpace_eq, hkernel]
  generalize m.calloc 1 = r at hc hserved ⊢
  cases hc with
  | refused pmm ok used => exact absurd rfl hserved
  | run page pmm ok positive inside fresh used =>
    refine ⟨page, rfl, spaceAt_created hm hk ok positive (by omega)
      (fresh page (le_refl _) (by omega)) fun i => ?_⟩
    rw [used i, show (page ≤ i ∧ i < page + 1) = (i = page) from propext (by omega)]

namespace Created

variable {m m' : Machine P} {kernel page : Nat}

theorem keeps_bytes (h : Created m kernel page m') : ∀ q, m.Used q → ∀ x < pageSize,
    m'.mem (m.pageAt q + x) = m.mem (m.pageAt q + x) := by
  intro q hq
  apply h.bytes
  rintro rfl
  exact h.fresh hq

theorem sameTree (h : Created m kernel page m') {root : Nat} (ht : Tables m root) :
    SameTree root m m' := sameTree_of_bytes h.hhdm ht h.keeps_bytes

theorem tables_old (h : Created m kernel page m') {root : Nat} (ht : Tables m root) :
    Tables m' root :=
  (h.sameTree ht).tables ht fun _ q hx hw => (h.used q).mpr (Or.inl (ht.used_of_walk hx hw))

/-- A path from the new table is empty, or it leads through the kernel's higher half. -/
theorem walk_new (h : Created m kernel page m') (ht : Tables m kernel) {xs : List (Fin 512)}
    (hx : xs.length ≤ 3) {t : Nat} (hw : walk (nextTable m') (m.pageAt page) xs = some t) :
    xs = [] ∧ t = m.pageAt page ∨ ¬OwnPath xs ∧ walk (nextTable m) kernel xs = some t := by
  cases xs with
  | nil => exact Or.inl ⟨rfl, (Option.some.inj hw).symm⟩
  | cons i zs =>
    rcases Nat.lt_or_ge i 256 with hi | hi
    · rw [walk, h.lower i hi] at hw
      cases hw
    · have hedge : nextTable m' (m.pageAt page) i = nextTable m' kernel i := by
        rw [h.upper i hi, (h.sameTree ht).edge]
      rw [walk_shared hedge, (h.sameTree ht).walks _ hx] at hw
      exact Or.inr ⟨Nat.not_lt.mpr hi, hw⟩

theorem kernel_ne (h : Created m kernel page m') (ht : Tables m kernel) {xs : List (Fin 512)}
    (hx : xs.length ≤ 3) : walk (nextTable m) kernel xs ≠ some (m.pageAt page) :=
  fun hw => h.fresh (ht.used_of_walk hx hw)

theorem tables_new (h : Created m kernel page m') (ht : Tables m kernel) :
    Tables m' (m.pageAt page) := by
  refine ⟨fun xs ys t hx hy hwx hwy => ?_, fun xs t hx hw => ?_⟩
  · rcases h.walk_new ht hx hwx with ⟨rfl, rfl⟩ | ⟨-, hwx'⟩
    · rcases h.walk_new ht hy hwy with ⟨rfl, -⟩ | ⟨-, hwy'⟩
      · rfl
      · exact absurd hwy' (h.kernel_ne ht hy)
    · rcases h.walk_new ht hy hwy with ⟨-, rfl⟩ | ⟨-, hwy'⟩
      · exact absurd hwx' (h.kernel_ne ht hx)
      · exact ht.distinct xs ys t hx hy hwx' hwy'
  · rcases h.walk_new ht hx hw with ⟨-, rfl⟩ | ⟨-, hw'⟩
    · exact ⟨page, (pageAt_hhdm h.hhdm page).symm, (h.used page).mpr (Or.inr rfl)⟩
    · obtain ⟨q, rfl, hu⟩ := ht.owned xs t hx hw'
      exact ⟨q, (pageAt_hhdm h.hhdm q).symm, (h.used q).mpr (Or.inl hu)⟩

theorem inside_new (h : Created m kernel page m') (ht : Tables m kernel) (hi : Inside m kernel) :
    Inside m' (m.pageAt page) := by
  intro xs q hx hw
  rcases h.walk_new ht hx hw with ⟨-, hq⟩ | ⟨-, hw'⟩
  · have he : q = page := pageAt_inj ((pageAt_hhdm h.hhdm q).symm.trans hq)
    rw [he]
    exact ⟨h.positive, h.inside⟩
  · rw [pageAt_hhdm h.hhdm] at hw'
    exact hi xs q hx hw'

theorem split_new (h : Created m kernel page m') (hk : Tables m kernel) {root : Nat}
    (ht : Tables m root) (hshared : ∀ i : Fin 512, 256 ≤ (i : Nat) →
      nextTable m kernel i = nextTable m root i) : Split m' (m.pageAt page) root := by
  refine ⟨fun i hi => ?_, fun q hq hroot => ?_⟩
  · rw [h.upper i hi, (h.sameTree ht).edge]
    exact hshared i hi
  · obtain ⟨xs, hx, hown, hw⟩ := hq
    rcases h.walk_new hk hx hw with ⟨-, hat⟩ | ⟨hno, -⟩
    · have he : q = page := pageAt_inj ((pageAt_hhdm h.hhdm q).symm.trans hat)
      rw [he] at hroot
      exact h.fresh (((h.sameTree ht).own hroot).used ht)
    · exact hno hown

end Created

end Vmm

end UmbraOS
