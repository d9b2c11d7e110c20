import UmbraOS.SpaceIsolation
import UmbraOS.VmmSupply

namespace UmbraOS

namespace Vmm

variable {P : PageSource pageSize}

theorem getNextLevel_refused {m : Machine P} (h : m.refused = true) (t i : Nat) :
    (getNextLevel m t i true).2.refused = true := by
  by_cases hp : entry m t i &&& ptePresent ≠ 0#64
  · rw [getNextLevel, if_pos hp]
    exact h
  · have hc := Machine.calloc_refused h 1
    rw [getNextLevel_absent hp]
    generalize m.calloc 1 = r at hc ⊢
    rw [linkTable]
    split
    next => exact hc
    next => exact hc

theorem loop_refused {m : Machine P} (h : m.refused = true) (t : Nat) (is : List Nat) :
    (is.foldl (fun m i => (getNextLevel m t i true).2) m).refused = true := by
  induction is generalizing m with
  | nil =>
    rw [List.foldl_nil]
    exact h
  | cons i is ih =>
    rw [List.foldl_cons]
    exact ih (getNextLevel_refused h t i)

/-- What the loop of `init` over the higher half does up to its entry `256 + k`, if no request
is refused. -/
structure Linked (m : Machine P) (root k : Nat) (m' : Machine P) : Prop where
  keeps : Keeps root m m'
  inside : Inside m' root
  there : ∀ i : Fin 512, 256 ≤ (i : Nat) → (i : Nat) < 256 + k → nextTable m' root i ≠ none

theorem Linked.next {m m' : Machine P} {root k : Nat} (h : Linked m root k m') (hk : k < 256)
    (hr : (getNextLevel m' root (256 + k) true).2.refused = false) :
    Linked m root (k + 1) (getNextLevel m' root (256 + k) true).2 := by
  obtain ⟨i, hi⟩ : ∃ i : Fin 512, (i : Nat) = 256 + k := ⟨⟨256 + k, by omega⟩, rfl⟩
  have ht := h.keeps.tables
  have hnil : ([] : List (Fin 512)).length ≤ 2 := Nat.zero_le 2
  have hreach := getNextLevel_reaches h.keeps.ok ht hnil rfl i
  have hin := getNextLevel_inside h.keeps.ok ht h.inside hnil rfl i
  rw [hi] at hreach hin
  generalize getNextLevel m' root (256 + k) true = r at hr hreach hin ⊢
  refine ⟨h.keeps.trans hreach.grows.keeps_others, hin, fun j hle hlt => ?_⟩
  rw [← walk_one]
  by_cases hj : j = i
  · cases hnone : r.1 with
    | none =>
      have htrue := (hreach.missing hnone).2
      rw [hr] at htrue
      cases htrue
    | some t =>
      have hfound := hreach.found t hnone
      rw [hj]
      exact fun h => Option.some_ne_none t (hfound.symm.trans h)
  · have hold : (j : Nat) < 256 + k := by
      have hne : (j : Nat) ≠ 256 + k := fun he => hj (Fin.ext (he.trans hi.symm))
      omega
    obtain ⟨t, hedge⟩ := Option.ne_none_iff_exists'.mp (h.there j hle hold)
    have hone := hreach.grows.keeps [j] t (by simp) ((walk_one m' root j).trans hedge)
    exact fun h => Option.some_ne_none t (hone.symm.trans h)

theorem loop_linked {m : Machine P} {root k : Nat} (hm : m.Ok) (ht : Tables m root)
    (hi : Inside m root) (hk : k ≤ 256)
    (hr : ((List.range' 256 k).foldl (fun m i => (getNextLevel m root i true).2) m).refused =
      false) :
    Linked m root k ((List.range' 256 k).foldl (fun m i => (getNextLevel m root i true).2) m) := by
  induction k with
  | zero =>
    rw [List.range'_zero, List.foldl_nil]
    exact ⟨(Grows.refl hm ht).keeps_others, hi, fun i hle hlt => absurd hle (by omega)⟩
  | succ k ih =>
    rw [List.range'_concat, List.foldl_append, Nat.one_mul, List.foldl_cons, List.foldl_nil]
      at hr ⊢
    generalize (List.range' 256 k).foldl (fun m i => (getNextLevel m root i true).2) m = m'
      at ih hr ⊢
    have hbefore : m'.refused = false := by
      cases hm' : m'.refused with
      | false => rfl
      | true =>
        rw [getNextLevel_refused hm'] at hr
        cases hr
    exact (ih (by omega) hbefore).next (by omega) hr

/-- What the loop makes of the page that the top-level table was given. -/
def topAt (r : Nat × Machine P) : AddressSpace × Machine P :=
  (⟨r.2.physToVirt r.1⟩, (List.range' 256 256).foldl
    (fun m i => (getNextLevel m (r.2.physToVirt r.1) i true).2) r.2)

theorem initSpace_eq (m : Machine P) : initSpace m = topAt (m.calloc 1) := rfl

/-- A zeroed page. -/
def zeroed (m : Machine P) (pmm : P.State) (page : Nat) : Machine P :=
  ⟨m.mem.fill (m.pageAt page) (1 * pageSize) 0#8, pmm, m.hhdm, m.refused⟩

theorem zeroed_empty (m : Machine P) (pmm : P.State) (page : Nat) (i : Fin 512) :
    nextTable (zeroed m pmm page) ((zeroed m pmm page).pageAt page) i = none := by
  have hi := i.isLt
  have hzero : entry (zeroed m pmm page) (m.pageAt page) i = 0#64 :=
    Memory.load64_fill_zero _ (by omega) (by simp only [pageSize]; omega)
  have hat : (zeroed m pmm page).pageAt page = m.pageAt page := rfl
  rw [hat, nextTable, hzero, if_neg (by decide)]

theorem zeroed_walk {m : Machine P} {pmm : P.State} {page q : Nat} {xs : List (Fin 512)}
    (hw : walk (nextTable (zeroed m pmm page)) ((zeroed m pmm page).pageAt page) xs =
      some ((zeroed m pmm page).pageAt q)) : q = page := by
  cases xs with
  | nil => exact (pageAt_inj (Option.some.inj hw)).symm
  | cons i xs =>
    rw [walk, zeroed_empty m pmm page i] at hw
    cases hw

theorem zeroed_inside (m : Machine P) (pmm : P.State) {page : Nat} (hpos : 0 < page)
    (hb : page < P.bound) : Inside (zeroed m pmm page) ((zeroed m pmm page).pageAt page) := by
  intro xs q _ hw
  rw [zeroed_walk hw]
  exact ⟨hpos, hb⟩

theorem topAt_run (m : Machine P) (pmm : P.State) (page : Nat) :
    topAt (page * pageSize, ⟨m.mem.fill (m.pageAt page) (1 * pageSize) 0#8, pmm, m.hhdm, m.refused⟩) =
      (⟨(zeroed m pmm page).pageAt page⟩, (List.range' 256 256).foldl
        (fun m' i => (getNextLevel m' ((zeroed m pmm page).pageAt page) i true).2) (zeroed m pmm page)) :=
  rfl

/-- Where nothing was refused, the top-level table is a free page that was cleared. -/
theorem initSpace_zeroed {m : Machine P} (hm : m.Ok) (hr : (initSpace m).2.refused = false) :
    ∃ pmm page, (zeroed m pmm page).Ok ∧ 0 < page ∧ page < P.bound ∧ ¬m.Used page ∧
      (∀ q, (zeroed m pmm page).Used q ↔ m.Used q ∨ q = page) ∧
      initSpace m = (⟨(zeroed m pmm page).pageAt page⟩, (List.range' 256 256).foldl
        (fun m' i => (getNextLevel m' ((zeroed m pmm page).pageAt page) i true).2) (zeroed m pmm page)) := by
  have hc := Machine.calloc_spec hm Nat.one_pos
  rw [initSpace_eq] at hr ⊢
  generalize m.calloc 1 = r at hc hr ⊢
  cases hc with
  | refused pmm ok used =>
    have htrue := loop_refused (show (⟨m.mem, pmm, m.hhdm, true⟩ : Machine P).refused = true from rfl)
      (Machine.physToVirt ⟨m.mem, pmm, m.hhdm, true⟩ 0) (List.range' 256 256)
    rw [topAt, htrue] at hr
    cases hr
  | run page pmm ok positive inside fresh used =>
    refine ⟨pmm, page, ⟨ok, hm.aligned, hm.window, hm.bound⟩, positive, by omega,
      fresh page (le_refl _) (by omega), fun q => ?_, topAt_run m pmm page⟩
    rw [show (zeroed m pmm page).Used q = P.used pmm q from rfl, used q,
      show (page ≤ q ∧ q < page + 1) = (q = page) from propext (by omega)]

/-- The kernel's space when its higher half is complete. -/
structure Started (m : Machine P) (r : AddressSpace × Machine P) : Prop where
  ok : r.2.Ok
  tables : Tables r.2 r.1.pml4
  inside : Inside r.2 r.1.pml4
  upper : Upper r.2 r.1.pml4
  hhdm : r.2.hhdm = m.hhdm
  used : ∀ q, m.Used q → r.2.Used q
  others : ∀ q, m.Used q → NotTable r.2 r.1.pml4 q ∧
    ∀ x < pageSize, r.2.mem (m.pageAt q + x) = m.mem (m.pageAt q + x)

theorem initSpace_started {m : Machine P} (hm : m.Ok) (hr : (initSpace m).2.refused = false) :
    Started m (initSpace m) := by
  obtain ⟨pmm, page, hok, hpos, hb, hf, hnew, heq⟩ := initSpace_zeroed hm hr
  have hbytes : ∀ q, q ≠ page → ∀ x < pageSize,
      (zeroed m pmm page).mem (m.pageAt q + x) = m.mem (m.pageAt q + x) :=
    fun q hq x hx => fill_other_page m hq hx
  have ht := Tables.of_empty ((hnew page).mpr (Or.inr rfl)) (zeroed_empty m pmm page)
  have hi := zeroed_inside m pmm hpos hb
  rw [heq] at hr ⊢
  have hlinked := loop_linked hok ht hi (Nat.le_refl 256) hr
  generalize (List.range' 256 256).foldl _ (zeroed m pmm page) = m' at hlinked ⊢
  refine ⟨hlinked.keeps.ok, hlinked.keeps.tables, hlinked.inside, fun i hle => ?_,
    hlinked.keeps.hhdm, fun q hq => hlinked.keeps.used q ((hnew q).mpr (Or.inl hq)),
    fun q hq => ?_⟩
  · have hlt := i.isLt
    exact hlinked.there i hle (by omega)
  · have hne : q ≠ page := by
      rintro rfl
      exact hf hq
    have hno : NotTable (zeroed m pmm page) ((zeroed m pmm page).pageAt page) q :=
      fun xs _ hw => hne (zeroed_walk hw)
    obtain ⟨hno', hb⟩ := hlinked.keeps.others q ((hnew q).mpr (Or.inl hq)) hno
    refine ⟨hno', fun x hx => ?_⟩
    exact (hb x hx).trans (hbytes q hne x hx)

theorem freePages_ne_zero {m : Machine P} (h : freePages m ≠ 0) :
    ∃ page, page < P.bound ∧ ¬m.Used page := by
  classical
  obtain ⟨page, hpage⟩ := Finset.card_pos.mp (Nat.pos_of_ne_zero h)
  obtain ⟨hb, hf⟩ := Finset.mem_filter.mp hpage
  exact ⟨page, Finset.mem_range.mp hb, hf⟩

/-- A step of the loop takes one free page for a table that is missing. -/
theorem getNextLevel_counts (hP : P.Complete) {m : Machine P} {root : Nat} (hm : m.Ok)
    (ht : Tables m root) {i : Fin 512} (hn : nextTable m root i = none)
    (hf : freePages m ≠ 0) :
    (getNextLevel m root i true).2.refused = m.refused ∧
      freePages (getNextLevel m root i true).2 + 1 = freePages m ∧
      ∀ j, j ≠ i → nextTable (getNextLevel m root i true).2 root j = nextTable m root j := by
  obtain ⟨top, rfl, hu⟩ := ht.owned [] root (Nat.zero_le 3) rfl
  have hp : ¬entry m (m.pageAt top) i &&& ptePresent ≠ 0#64 := by
    intro hp
    rw [nextTable, if_pos hp] at hn
    cases hn
  have hc := Machine.calloc_spec hm Nat.one_pos
  have hrefused := calloc_refuses hP hm
  rw [getNextLevel_absent hp]
  generalize m.calloc 1 = r at hc hrefused ⊢
  cases hc with
  | refused pmm ok used => exact absurd (hrefused rfl) hf
  | run page pmm ok positive inside fresh used =>
    have hfresh : ¬m.Used page := fresh page (le_refl _) (by omega)
    have hne : top ≠ page := by
      rintro rfl
      exact hfresh hu
    rw [linkTable_run m pmm _ i positive]
    have hh : (linked m pmm (m.pageAt top) page i).hhdm = m.hhdm := rfl
    have hcount : freePages (linked m pmm (m.pageAt top) page i) + 1 = freePages m :=
      freePages_run inside fresh used
    have hsame : ∀ j, j ≠ i → nextTable (linked m pmm (m.pageAt top) page i) (m.pageAt top) j =
        nextTable m (m.pageAt top) j :=
      fun j hj => nextTable_congr hh (linked_entry_other m pmm hne j fun h => hj h.2)
    exact ⟨rfl, hcount, hsame⟩

/-- The loop of `init` before its entry `256 + k`, when there are pages enough. -/
structure Counted (m : Machine P) (root k : Nat) (m' : Machine P) : Prop where
  linked : Linked m root k m'
  refused : m'.refused = m.refused
  free : freePages m' + k = freePages m
  missing : ∀ i : Fin 512, 256 + k ≤ (i : Nat) → nextTable m' root i = none

theorem Counted.next (hP : P.Complete) {m m' : Machine P} {root k : Nat}
    (h : Counted m root k m') (hk : k < 256) (hf : k < freePages m)
    (hr : m.refused = false) :
    Counted m root (k + 1) (getNextLevel m' root (256 + k) true).2 := by
  obtain ⟨i, hi⟩ : ∃ i : Fin 512, (i : Nat) = 256 + k := ⟨⟨256 + k, by omega⟩, rfl⟩
  have hcount := h.free
  obtain ⟨hrefused, hfree, hsame⟩ := getNextLevel_counts hP h.linked.keeps.ok
    h.linked.keeps.tables (h.missing i (by omega)) (by omega)
  rw [hi] at hrefused hfree hsame
  have hlinked := h.linked.next hk ((hrefused.trans h.refused).trans hr)
  generalize (getNextLevel m' root (256 + k) true).2 = m'' at hrefused hfree hsame hlinked ⊢
  refine ⟨hlinked, hrefused.trans h.refused, by omega, fun j hj => ?_⟩
  have hne : j ≠ i := fun he => by
    rw [he] at hj
    omega
  rw [hsame j hne]
  exact h.missing j (by omega)

theorem loop_counted (hP : P.Complete) {m : Machine P} {root k : Nat} (hm : m.Ok)
    (ht : Tables m root) (hi : Inside m root) (hempty : ∀ i, nextTable m root i = none)
    (hk : k ≤ 256) (hf : k ≤ freePages m) (hr : m.refused = false) :
    Counted m root k ((List.range' 256 k).foldl (fun m i => (getNextLevel m root i true).2) m) := by
  induction k with
  | zero =>
    rw [List.range'_zero, List.foldl_nil]
    exact ⟨⟨(Grows.refl hm ht).keeps_others, hi, fun i hle hlt => absurd hle (by omega)⟩, rfl, rfl,
      fun i _ => hempty i⟩
  | succ k ih =>
    rw [List.range'_concat, List.foldl_append, Nat.one_mul, List.foldl_cons, List.foldl_nil]
    exact (ih (by omega) (by omega)).next hP (by omega) (by omega) hr

/-- With pages enough `init` gets all its tables, and it takes one page for each of them. -/
theorem initSpace_free (hP : P.Complete) {m : Machine P} (hm : m.Ok) (hr : m.refused = false)
    (hf : 257 ≤ freePages m) : (initSpace m).2.refused = false ∧
      freePages (initSpace m).2 + 257 = freePages m := by
  have hc := Machine.calloc_spec hm Nat.one_pos
  have hrefused := calloc_refuses hP hm
  rw [initSpace_eq]
  generalize m.calloc 1 = r at hc hrefused ⊢
  cases hc with
  | refused pmm ok used =>
    have hzero := hrefused rfl
    omega
  | run page pmm ok positive inside fresh used =>
    have hempty := zeroed_empty m pmm page
    have hnew : (zeroed m pmm page).Used page := (used page).mpr (Or.inr (by omega))
    have ht := Tables.of_empty hnew hempty
    have hok : (zeroed m pmm page).Ok := ⟨ok, hm.aligned, hm.window, hm.bound⟩
    have hcount : freePages (zeroed m pmm page) + 1 = freePages m :=
      freePages_run inside fresh used
    have hi := zeroed_inside m pmm positive (by omega)
    rw [topAt_run]
    have hcounted := loop_counted hP hok ht hi hempty (Nat.le_refl 256) (by omega) hr
    generalize (List.range' 256 256).foldl _ (zeroed m pmm page) = m' at hcounted ⊢
    have hfree := hcounted.free
    have htotal : freePages m' + 257 = freePages m := by omega
    exact ⟨hcounted.refused.trans hr, htotal⟩

end Vmm

namespace Spaces

open Vmm

variable {P : PageSource pageSize}

theorem start_forest {m : Machine P} (hm : m.Ok) (hr : (initSpace m).2.refused = false) :
    Forest (start m) := by
  have hstarted := initSpace_started hm hr
  unfold start
  generalize initSpace m = r at hstarted ⊢
  have hlive : ∀ id a, Spaces.live ⟨r.2, r.1, CellStore.empty⟩ id = some a →
      id = none ∧ a = r.1 := by
    intro id a ha
    cases id with
    | none => exact ⟨rfl, (Option.some.inj ha).symm⟩
    | some id => cases ha
  refine ⟨hstarted.ok, fun id a ha => ?_, fun id a ha => ?_, hstarted.upper,
    fun i a j b ha hb hij => ?_⟩
  · rw [(hlive id a ha).2]
    exact hstarted.tables
  · rw [(hlive id a ha).2]
    exact hstarted.inside
  · exact absurd ((hlive i a ha).1.trans (hlive j b hb).1.symm) hij

/-- What holds at every point of a run: one higher half for all, and lower halves that no other
space's call changes. -/
def Isolated (s : Spaces P) (calls : List Call) : Prop :=
  ∀ done, done <+: calls → SameKernel (done.foldl step s) ∧
    ∀ c, done ++ [c] <+: calls → OthersKept (done.foldl step s) c

theorem forest_isolated (hP : P.Complete) {s : Spaces P} (hs : Forest s) {calls : List Call}
    (h : StepsMeet step Served s calls) : Isolated s calls := by
  intro done hdone
  have hkeep : ∀ t c, Forest t → Served t c → Forest (step t c) :=
    fun t c ht hc => (step_forest hP ht hc).1
  have hforest : Forest (done.foldl step s) := (h.of_prefix hdone).invariant hkeep hs
  refine ⟨hforest.sameKernel, fun c hc => ?_⟩
  have hmeets := (stepsMeet_append.mp (h.of_prefix hc)).2
  exact (step_forest hP hforest hmeets.1).2

/-- The spaces over the physical memory manager, from the end of the loop of `init` on. -/
theorem spaces_isolated {size : Nat} {hs : u64 (size * pageSize) ≤ 2 ^ 52}
    {m : Machine (Pmm.source size hs)} (hm : m.Ok) (hr : (initSpace m).2.refused = false)
    {calls : List Call} (h : StepsMeet step Served (start m) calls) : Isolated (start m) calls :=
  forest_isolated (Pmm.source_complete size hs) (start_forest hm hr) h

theorem start_machine (m : Machine P) : (start m).machine = (initSpace m).2 := by
  unfold start
  generalize initSpace m = r
  rfl

theorem served_of_ne (s : Spaces P) {c : Call} (h : c ≠ .newSpace) : Served s c :=
  fun he => absurd he h

theorem boot_free : 300 ≤ freePages bootMachine := by
  classical
  have hfree : ∀ i, 8 ≤ i → ¬bootMachine.Used i := by
    intro i hi hu
    have hbit : bootPmm.bitmap.get i = true := hu
    have hbyte : bootPmm.bitmap.data (i / 8) = 0#8 := if_neg (by omega)
    rw [Bitmap.get, hbyte] at hbit
    simp at hbit
  have hsub : Finset.Ico 8 308 ⊆
      (Finset.range (Pmm.source 8 bootPmm_limit).bound).filter fun i => ¬bootMachine.Used i := by
    intro i hi
    obtain ⟨hle, hlt⟩ := Finset.mem_Ico.mp hi
    have hb : 308 ≤ (Pmm.source 8 bootPmm_limit).bound := by decide
    exact Finset.mem_filter.mpr ⟨Finset.mem_range.mpr (by omega), hfree i hle⟩
  have hcard := Finset.card_le_card hsub
  rw [Nat.card_Ico] at hcard
  unfold freePages
  omega

theorem boot_isolated : Isolated (start bootMachine) [.newSpace,
    .map (some 0) 0x400000 0x5000 7#64, .virtToPhys none 0xffffffff80000000, .destroy 0] := by
  have hboot := boot_free
  obtain ⟨hr, hcount⟩ := initSpace_free (Pmm.source_complete 8 bootPmm_limit) bootMachine_ok rfl
    (by omega)
  have hpage : ∃ page, page < (Pmm.source 8 bootPmm_limit).bound ∧
      ¬(initSpace bootMachine).2.Used page := freePages_ne_zero (by omega)
  have hserved : Served (start bootMachine) .newSpace := by
    intro _
    rw [start_machine]
    exact hpage
  exact spaces_isolated bootMachine_ok hr ⟨hserved, served_of_ne _ (fun h => by cases h),
    served_of_ne _ (fun h => by cases h), served_of_ne _ (fun h => by cases h), trivial⟩

/-- What `new_space` does when no page is free: page 0 becomes the top-level table. -/
structure Misplaced (m : Machine P) (r : AddressSpace × Machine P) : Prop where
  ok : r.2.Ok
  hhdm : r.2.hhdm = m.hhdm
  free : freePages r.2 = freePages m
  top : r.1 = ⟨m.pageAt 0⟩
  lower : ∀ j : Fin 512, (j : Nat) < 256 →
    entry r.2 (m.pageAt 0) j = entry m (m.pageAt 0) j

theorem newSpace_misplaced {m : Machine P} {kernelSpace : AddressSpace} {kernel : Nat}
    (hm : m.Ok) (hk : kernelSpace.pml4 = m.pageAt kernel) (hpos : 0 < kernel)
    (hfree : freePages m = 0) : Misplaced m (newSpace m kernelSpace) := by
  have hc := Machine.calloc_spec hm Nat.one_pos
  rw [newSpace_eq, hk]
  generalize m.calloc 1 = r at hc ⊢
  cases hc with
  | run page pmm ok positive inside fresh used =>
    have hcount : freePages (zeroed m pmm page) + 1 = freePages m :=
      freePages_run inside fresh used
    omega
  | refused pmm ok used =>
    obtain ⟨m1, hm1⟩ : ∃ m1 : Machine P, m1 = ⟨m.mem, pmm, m.hhdm, true⟩ := ⟨_, rfl⟩
    have hat : m1.pageAt = m.pageAt := by rw [hm1]; rfl
    have hpointer : m1.physToVirt 0 = m.pageAt 0 := by
      rw [hm1, Machine.physToVirt, Machine.pageAt, Nat.zero_mul]
    have hcopied := copyEntries_copied m1 (Nat.ne_of_gt hpos) (Nat.le_refl 256)
    rw [← hm1, spaceAt, hpointer]
    rw [hat] at hcopied
    generalize (List.range' 256 256).foldl _ m1 = m' at hcopied ⊢
    have hpmm : m'.pmm = pmm := hcopied.pmm.trans (by rw [hm1])
    have hhdm : m'.hhdm = m.hhdm := hcopied.hhdm.trans (by rw [hm1])
    have hused : ∀ i, m'.Used i ↔ m.Used i := by
      intro i
      rw [Machine.Used, hpmm]
      exact used i
    refine ⟨⟨hpmm ▸ ok, hhdm ▸ hm.aligned, hhdm ▸ hm.window, hm.bound⟩, hhdm,
      freePages_congr hused, rfl, fun j hj => ?_⟩
    have hentry := hcopied.entries j
    rw [if_neg (by omega), hat] at hentry
    rw [hentry, hm1]
    rfl

theorem step_misplaced {m : Machine P} {kernelSpace : AddressSpace}
    (others : CellStore AddressSpace) {kernel : Nat} (hm : m.Ok)
    (hk : kernelSpace.pml4 = m.pageAt kernel) (hpos : 0 < kernel) (hfree : freePages m = 0) :
    ∃ r, Spaces.step ⟨m, kernelSpace, others⟩ .newSpace = ⟨r.2, kernelSpace, others.alloc r.1⟩ ∧
      Misplaced m r := by
  refine ⟨newSpace m kernelSpace, ?_, newSpace_misplaced hm hk hpos hfree⟩
  rw [step_newSpace]

/-- Page 0 leads to itself along its first entry. -/
theorem virtToPte_self {m : Machine P} (h : entry m (m.pageAt 0) 0 = 1#64) :
    virtToPte m (m.pageAt 0) 0x1000 = (some (m.pageAt 0 + 8), m) := by
  have haddr : (pteGetAddr 1#64).toNat = 0 := by decide
  have hnext : getNextLevel m (m.pageAt 0) 0 true = (some (m.pageAt 0), m) := by
    rw [getNextLevel, h, if_pos (by decide), haddr, Machine.physToVirt, Machine.pageAt,
      Nat.zero_mul]
  have h4 : pml4Offset 0x1000 = 0 := by decide
  have h3 : pml3Offset 0x1000 = 0 := by decide
  have h2 : pml2Offset 0x1000 = 0 := by decide
  have h1 : 8 * pml1Offset 0x1000 = 8 := by decide
  rw [virtToPte, h4, h3, h2, h1, hnext, ifNull_some, hnext, ifNull_some, hnext, ifNull_some]

/-- Two spaces with page 0 for their top-level table. -/
theorem twins_not_kept {s : Spaces P} {a : AddressSpace} (h0 : s.live (some 0) = some a)
    (h1 : s.live (some 1) = some a) (ha : a = ⟨s.machine.pageAt 0⟩)
    (he0 : entry s.machine (s.machine.pageAt 0) 0 = 1#64)
    (he1 : entry s.machine (s.machine.pageAt 0) 1 = 0#64) :
    ¬OthersKept s (.map (some 0) 0x1000 0x5000 7#64) := by
  intro h
  obtain ⟨m, hm⟩ : ∃ m : Machine P, m = stored s.machine (s.machine.pageAt 0) 1 0x5007#64 :=
    ⟨_, rfl⟩
  have hclear : s.machine.mem.load64 (s.machine.pageAt 0 + 8) = 0#64 := he1
  have hmap : a.map s.machine 0x1000 0x5000 7#64 = m := by
    have hentry : BitVec.ofNat 64 0x5000 ||| 7#64 = 0x5007#64 := by decide
    rw [ha, AddressSpace.map, virtToPte_self he0, ifNull_some, hclear, if_neg (by decide), hentry,
      hm]
    rfl
  have hbefore : (a.virtToPhys s.machine 0x1000).1 = BitVec.allOnes 64 := by
    rw [ha, AddressSpace.virtToPhys, virtToPte_self he0, ifNull_some, hclear, if_pos (by decide)]
  have hat : m.pageAt 0 = s.machine.pageAt 0 := by rw [hm]; rfl
  have hself : entry m (m.pageAt 0) 0 = 1#64 := by
    rw [hat, hm, ← he0]
    exact store_other_entry s.machine 0 (show (0 : Fin 512) ≠ 1 by decide) 0x5007#64
  have hset : m.mem.load64 (m.pageAt 0 + 8) = 0x5007#64 := by
    rw [hat, hm]
    exact stored_entry_self s.machine (s.machine.pageAt 0) 1 0x5007#64
  have haddr : pteGetAddr 0x5007#64 = 0x5000#64 := by decide
  have hafter : (a.virtToPhys m 0x1000).1 = 0x5000#64 := by
    rw [ha, ← hat, AddressSpace.virtToPhys, virtToPte_self hself, ifNull_some, hset,
      if_neg (by decide), haddr]
  have hstep : s.step (.map (some 0) 0x1000 0x5000 7#64) = { s with machine := m } := by
    rw [step_map, h0, ← hmap]
  have hkept := (h (some 1) a h1 (by unfold Call.on; decide)).2 0x1000 (by decide)
  rw [hstep] at hkept
  rw [hafter, hbefore] at hkept
  exact absurd hkept (by decide)

/-- 257 pages are free: page 7 and the pages from 8 to 263. -/
def scarcePmm : Pmm :=
  ⟨⟨fun i => if i = 0 then 0x7f#8 else if i < 33 then 0#8 else 0xff#8, 64⟩, 0, []⟩

theorem scarcePmm_limit : u64 (64 * pageSize) ≤ 2 ^ 52 :=
  Nat.le_trans (u64_le _) (by simp [pageSize])

/-- Zeroed memory but for the first word of page 0, which is 1. -/
def scarceMachine : Machine (Pmm.source 64 scarcePmm_limit) :=
  ⟨fun a => if a = 0xffff800000000000 then 1#8 else 0#8, scarcePmm, 0xffff800000000000, false⟩

theorem scarceMachine_ok : scarceMachine.Ok where
  pmm := ⟨rfl, by decide, by decide⟩
  aligned := by decide
  window := by decide
  bound := by decide

theorem scarce_used (i : Nat) : scarceMachine.Used i ↔ i < 7 ∨ 264 ≤ i := by
  have hbit : scarceMachine.Used i ↔ (scarcePmm.bitmap.data (i / 8)).getLsbD (i % 8) = true := by
    rw [← Bitmap.get_eq_getLsbD]
    exact Iff.rfl
  have hfirst : ∀ k : Fin 8, (0x7f#8).getLsbD k = true ↔ (k : Nat) < 7 := by decide
  have hlast : ∀ k : Fin 8, (0xff#8).getLsbD k = true := by decide
  have hk : i % 8 < 8 := Nat.mod_lt _ (by decide)
  have hdata : scarcePmm.bitmap.data (i / 8) =
      if i / 8 = 0 then 0x7f#8 else if i / 8 < 33 then 0#8 else 0xff#8 := rfl
  rw [hbit, hdata]
  by_cases hzero : i / 8 = 0
  · rw [if_pos hzero]
    have hiff : (0x7f#8).getLsbD (i % 8) = true ↔ i % 8 < 7 := hfirst ⟨i % 8, hk⟩
    rw [hiff]
    omega
  · rw [if_neg hzero]
    by_cases hmid : i / 8 < 33
    · rw [if_pos hmid, BitVec.getLsbD_zero]
      have hout : ¬(i < 7 ∨ 264 ≤ i) := by omega
      exact ⟨fun h => Bool.noConfusion h, fun h => absurd h hout⟩
    · rw [if_neg hmid]
      have hin : 264 ≤ i := by omega
      exact ⟨fun _ => Or.inr hin, fun _ => hlast ⟨i % 8, hk⟩⟩

theorem scarce_free : freePages scarceMachine = 257 := by
  classical
  have hfilter : ((Finset.range (Pmm.source 64 scarcePmm_limit).bound).filter
      fun i => ¬scarceMachine.Used i) = Finset.Ico 7 264 := by
    ext i
    have hb : 264 ≤ (Pmm.source 64 scarcePmm_limit).bound := by decide
    rw [Finset.mem_filter, Finset.mem_range, Finset.mem_Ico, scarce_used]
    omega
  unfold freePages
  rw [hfilter, Nat.card_Ico]

/-- Two spaces are made when no page is free: a mapping in one of them shows in the other. -/
theorem scarce_not_isolated : (initSpace scarceMachine).2.refused = false ∧
    ¬OthersKept ([Call.newSpace, .newSpace].foldl step (start scarceMachine))
      (.map (some 0) 0x1000 0x5000 7#64) := by
  have hfull := scarce_free
  obtain ⟨hr, hcount⟩ := initSpace_free (Pmm.source_complete 64 scarcePmm_limit) scarceMachine_ok
    rfl (by omega)
  have hstarted := initSpace_started scarceMachine_ok hr
  refine ⟨hr, ?_⟩
  have hused : scarceMachine.Used 0 := (scarce_used 0).mpr (Or.inl (by omega))
  have hkept : ∀ j : Fin 512, entry (initSpace scarceMachine).2 (scarceMachine.pageAt 0) j =
      entry scarceMachine (scarceMachine.pageAt 0) j := entry_congr (hstarted.others 0 hused).2
  have hfirst : entry scarceMachine (scarceMachine.pageAt 0) 0 = 1#64 := by decide
  have hsecond : entry scarceMachine (scarceMachine.pageAt 0) 1 = 0#64 := by decide
  have hentry0 : entry (initSpace scarceMachine).2 (scarceMachine.pageAt 0) 0 = 1#64 :=
    (hkept ⟨0, by decide⟩).trans hfirst
  have hentry1 : entry (initSpace scarceMachine).2 (scarceMachine.pageAt 0) 1 = 0#64 :=
    (hkept ⟨1, by decide⟩).trans hsecond
  rw [List.foldl_cons, List.foldl_cons, List.foldl_nil]
  unfold start
  generalize initSpace scarceMachine = r at hcount hstarted hentry0 hentry1
  have hat : r.2.pageAt = scarceMachine.pageAt := funext (pageAt_hhdm hstarted.hhdm)
  obtain ⟨kernel, hk, -⟩ := hstarted.tables.owned [] _ (Nat.zero_le 3) rfl
  have hpos := (hstarted.inside [] kernel (Nat.zero_le 3) (congrArg some hk)).1
  obtain ⟨r1, hstep1, hone⟩ := step_misplaced CellStore.empty hstarted.ok hk hpos (by omega)
  have hat1 : r1.2.pageAt = r.2.pageAt := funext (pageAt_hhdm hone.hhdm)
  have hfree1 : freePages r1.2 = 0 := by
    rw [hone.free]
    omega
  obtain ⟨r2, hstep2, htwo⟩ := step_misplaced (CellStore.empty.alloc r1.1) hone.ok
    (hk.trans (congrFun hat1 kernel).symm) hpos hfree1
  have hat2 : r2.2.pageAt = r1.2.pageAt := funext (pageAt_hhdm htwo.hhdm)
  rw [hstep1, hstep2]
  have hall : r2.2.pageAt = scarceMachine.pageAt := hat2.trans (hat1.trans hat)
  have hlow0 := hone.lower ⟨0, by decide⟩ (by decide)
  have hlow1 := hone.lower ⟨1, by decide⟩ (by decide)
  have hlow0' := htwo.lower ⟨0, by decide⟩ (by decide)
  have hlow1' := htwo.lower ⟨1, by decide⟩ (by decide)
  rw [hat] at hlow0 hlow1
  rw [hat1, hat] at hlow0' hlow1'
  have hsame : r2.1 = r1.1 := by rw [htwo.top, hone.top, hat1]
  have hlive0 : Spaces.live ⟨r2.2, r.1, (CellStore.empty.alloc r1.1).alloc r2.1⟩ (some 0) =
      some r1.1 := CellStore.alloc_cell_of_live _ (CellStore.alloc_cell_self _ _)
  have hlive1 : Spaces.live ⟨r2.2, r.1, (CellStore.empty.alloc r1.1).alloc r2.1⟩ (some 1) =
      some r1.1 := hsame ▸ CellStore.alloc_cell_self _ _
  refine twins_not_kept hlive0 hlive1 ?_ ?_ ?_
  · rw [hone.top, hat2, hat1]
  · rw [hall]
    exact hlow0'.trans (hlow0.trans hentry0)
  · rw [hall]
    exact hlow1'.trans (hlow1.trans hentry1)

end Spaces

end UmbraOS
