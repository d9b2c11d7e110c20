import UmbraOS.VmmMap

namespace UmbraOS

namespace Pmm

/-- No page is free, and the scan of a request has left the cursor at the end. -/
structure Exhausted (p : Pmm) : Prop where
  taken : ¬HasFreeRun p.bitmap 1 0 p.scanLimit
  cursor : p.lastPageIdx = p.scanLimit

/-- A refused request leaves the bitmap, and the cursor at the end. -/
theorem Managed.alloc_full {size pages : Nat} {p : Pmm} (h : Managed size p)
    (hs : u64 (size * pageSize) ≤ 2 ^ 52) (hp : 0 < pages) (hr : (p.alloc pages).1 = 0) :
    ¬HasFreeRun p.bitmap pages 0 p.scanLimit ∧ (p.alloc pages).2.bitmap = p.bitmap ∧
      (p.alloc pages).2.lastPageIdx = p.scanLimit := by
  have hl : p.scanLimit ≤ 2 ^ 52 := h.scanLimit ▸ hs
  have hfirst := innerAlloc_scanned hp h.cursor
  rw [alloc_of_pos p hp] at hr ⊢
  generalize p.innerAlloc pages p.scanLimit = first at hfirst hr ⊢
  cases hfirst with
  | found page touched start stop clear =>
    have hne := found_address_ne hp h.zero hl stop clear
    rw [if_neg hne] at hr
    exact absurd hr hne
  | missing touched =>
    have hsecond : Scanned ⟨p.bitmap, 0, touched⟩ pages p.scanLimit _ :=
      innerAlloc_scanned hp (Nat.zero_le _)
    rw [if_pos rfl] at hr ⊢
    generalize innerAlloc ⟨p.bitmap, 0, touched⟩ pages p.scanLimit = second at hsecond hr ⊢
    cases hsecond with
    | found page touched start stop clear =>
      exact absurd hr (found_address_ne hp h.zero hl stop clear)
    | missing touched none => exact ⟨none, rfl, rfl⟩

end Pmm

namespace Vmm

variable {size : Nat} {hs : u64 (size * pageSize) ≤ 2 ^ 52}

/-- A query leaves the bitmap and the cursor of the page allocator, and every entry of the
tables. -/
structure Unchanged (tables : Nat → Prop) (m m' : Machine (Pmm.source size hs)) : Prop where
  bitmap : Pmm.bitmap m'.pmm = Pmm.bitmap m.pmm
  cursor : Pmm.lastPageIdx m'.pmm = Pmm.lastPageIdx m.pmm
  entries : ∀ table, tables table → ∀ idx, entry m' table idx = entry m table idx

/-- Pages that are taken stay taken. -/
structure KeepsPages (m m' : Machine (Pmm.source size hs)) : Prop where
  ok : m'.Ok
  used : ∀ page, m.Used page → m'.Used page

variable {m m' m'' : Machine (Pmm.source size hs)} {tables : Nat → Prop}

theorem KeepsPages.trans (h : KeepsPages m m') (h' : KeepsPages m' m'') : KeepsPages m m'' :=
  ⟨h'.ok, fun page hp => h'.used page (h.used page hp)⟩

/-- How `get_next_level` ends at an entry that is not present: it takes a page, or there is none. -/
inductive NextLevel (m : Machine (Pmm.source size hs)) : Option Nat × Machine (Pmm.source size hs) → Prop
  | refused (m' : Machine (Pmm.source size hs)) (mem : m'.mem = m.mem)
    (bitmap : Pmm.bitmap m'.pmm = Pmm.bitmap m.pmm)
    (cursor : Pmm.lastPageIdx m'.pmm = Pmm.scanLimit m.pmm)
    (taken : ¬Pmm.HasFreeRun (Pmm.bitmap m.pmm) 1 0 (Pmm.scanLimit m.pmm)) (keeps : KeepsPages m m') :
    NextLevel m (none, m')
  | run (table page : Nat) (m' : Machine (Pmm.source size hs)) (keeps : KeepsPages m m')
    (fresh : ¬m.Used page) (used : m'.Used page)
    (free : Pmm.HasFreeRun (Pmm.bitmap m.pmm) 1 0 (Pmm.scanLimit m.pmm)) : NextLevel m (some table, m')

theorem getNextLevel_linked (hm : m.Ok) {table : Nat} {idx : Fin 512}
    (habsent : ¬entry m table idx &&& ptePresent ≠ 0#64) :
    NextLevel m (getNextLevel m table idx true) := by
  have hmanaged : Pmm.Managed size m.pmm := hm.pmm
  have halloc := Machine.alloc_of_pos m Nat.one_pos
  have hcalloc := Machine.calloc_spec hm Nat.one_pos
  have hok : Pmm.Managed size (Pmm.alloc m.pmm 1).2 := hmanaged.alloc hs 1
  rw [getNextLevel_absent habsent]
  by_cases hr : (Pmm.alloc m.pmm 1).1 = 0
  · obtain ⟨htaken, hbitmap, hcursor⟩ := hmanaged.alloc_full hs Nat.one_pos hr
    have hnull : ((Pmm.source size hs).alloc 1 m.pmm).1 = 0 := hr
    have hnone : m.calloc 1 = (0, ⟨m.mem, (Pmm.alloc m.pmm 1).2, m.hhdm, true⟩) := by
      unfold Machine.calloc
      rw [if_neg Nat.one_ne_zero, halloc, hnull]
      simp only [ne_eq, not_true_eq_false, if_false, beq_self_eq_true, Bool.or_true]
      rfl
    rw [hnone, linkTable_refused]
    refine .refused _ rfl hbitmap hcursor htaken ⟨⟨hok, hm.aligned, hm.window, hm.bound⟩, ?_⟩
    intro page hused
    show (Pmm.alloc m.pmm 1).2.bitmap.get page = true
    rw [hbitmap]
    exact hused
  · have hne : (m.calloc 1).1 ≠ 0 := by
      have hsome : ((Pmm.source size hs).alloc 1 m.pmm).1 ≠ 0 := hr
      unfold Machine.calloc
      rw [if_neg Nat.one_ne_zero, halloc]
      simp only [if_pos hsome]
      exact hsome
    generalize m.calloc 1 = result at hcalloc hne ⊢
    cases hcalloc with
    | refused pmm ok used => exact absurd rfl hne
    | run page pmm ok positive inside fresh used =>
      have hfresh : ¬m.Used page := fresh page (Nat.le_refl _) (Nat.lt_succ_self _)
      rw [linkTable_run m pmm _ idx positive]
      refine .run _ page _ ⟨⟨ok, hm.aligned, hm.window, hm.bound⟩, fun i hi => (used i).mpr (Or.inl hi)⟩
        hfresh ((used page).mpr (Or.inr ⟨Nat.le_refl _, Nat.lt_succ_self _⟩))
        ⟨page, Nat.zero_le _, ?_, fun i hi hlt => ?_⟩
      · rw [hmanaged.scanLimit]
        exact inside
      · exact Bool.eq_false_of_not_eq_true (fresh i hi hlt)

theorem getNextLevel_present {table idx : Nat} (hpresent : entry m table idx &&& ptePresent ≠ 0#64) :
    getNextLevel m table idx true = (some (m.physToVirt (pteGetAddr (entry m table idx)).toNat), m) := by
  unfold getNextLevel
  rw [if_pos hpresent]

theorem getNextLevel_keeps (hm : m.Ok) (table : Nat) (idx : Fin 512) :
    KeepsPages m (getNextLevel m table idx true).2 := by
  by_cases hpresent : entry m table idx &&& ptePresent ≠ 0#64
  · rw [getNextLevel_present hpresent]
    exact ⟨hm, fun _ hp => hp⟩
  · have hlinked := getNextLevel_linked hm hpresent
    generalize getNextLevel m table idx true = result at hlinked ⊢
    cases hlinked with
    | refused m' mem bitmap cursor taken keeps => exact keeps
    | run table page m' keeps => exact keeps

/-- What follows a step down the tables. -/
def stepDown (m : Machine (Pmm.source size hs)) (table : Nat) (idx : Fin 512)
    (found : Nat → Machine (Pmm.source size hs) → Option Nat × Machine (Pmm.source size hs)) :
    Option Nat × Machine (Pmm.source size hs) :=
  ifNull (getNextLevel m table idx true) (fun m => (none, m)) found

theorem stepDown_keeps (hm : m.Ok) (table : Nat) (idx : Fin 512)
    {found : Nat → Machine (Pmm.source size hs) → Option Nat × Machine (Pmm.source size hs)}
    (hfound : ∀ table m', m'.Ok → KeepsPages m' (found table m').2) :
    KeepsPages m (stepDown m table idx found).2 := by
  have hkeeps := getNextLevel_keeps hm table idx
  unfold stepDown
  generalize getNextLevel m table idx true = result at hkeeps ⊢
  obtain ⟨next, m'⟩ := result
  cases next with
  | none => exact hkeeps
  | some next => exact hkeeps.trans (hfound next m' hkeeps.ok)

/-- Past an entry that is not present nothing is changed only by an allocator with nothing left. -/
theorem stepDown_absent (hm : m.Ok) {table : Nat} {idx : Fin 512}
    (habsent : ¬entry m table idx &&& ptePresent ≠ 0#64)
    {found : Nat → Machine (Pmm.source size hs) → Option Nat × Machine (Pmm.source size hs)}
    (hfound : ∀ table m', m'.Ok → KeepsPages m' (found table m').2) :
    Unchanged tables m (stepDown m table idx found).2 ↔ Pmm.Exhausted m.pmm := by
  have hlinked := getNextLevel_linked hm habsent
  unfold stepDown
  generalize getNextLevel m table idx true = result at hlinked ⊢
  cases hlinked with
  | refused m' mem bitmap cursor taken keeps =>
    constructor
    · intro h
      exact ⟨taken, h.cursor.symm.trans cursor⟩
    · intro h
      refine ⟨bitmap, cursor.trans h.cursor.symm, fun t _ i => ?_⟩
      show m'.mem.load64 _ = m.mem.load64 _
      rw [mem]
  | run next page m' keeps fresh used free =>
    refine iff_of_false (fun h => fresh ?_) fun h => h.taken free
    have hused := (hfound next m' keeps.ok).used page used
    show (Pmm.bitmap m.pmm).get page = true
    rw [← h.bitmap]
    exact hused

/-- The walk of `virt_to_pte` along a path of tables. -/
def descend (last : Nat → Nat) (m : Machine (Pmm.source size hs)) (table : Nat) :
    List (Fin 512) → Option Nat × Machine (Pmm.source size hs)
  | [] => (some (last table), m)
  | idx :: path => stepDown m table idx fun table m => descend last m table path

theorem descend_keeps (last : Nat → Nat) (hm : m.Ok) (table : Nat) (path : List (Fin 512)) :
    KeepsPages m (descend last m table path).2 := by
  induction path generalizing m table with
  | nil => exact ⟨hm, fun _ hp => hp⟩
  | cons idx path ih => exact stepDown_keeps hm table idx fun table m' hm' => ih hm' table

theorem descend_unchanged_iff (last : Nat → Nat) (hm : m.Ok) (table : Nat) (path : List (Fin 512)) :
    Unchanged tables m (descend last m table path).2 ↔
      (walk (nextTable m) table path).isSome ∨ Pmm.Exhausted m.pmm := by
  induction path generalizing table with
  | nil => exact iff_of_true ⟨rfl, rfl, fun _ _ _ => rfl⟩ (Or.inl rfl)
  | cons idx path ih =>
    by_cases hpresent : entry m table idx &&& ptePresent ≠ 0#64
    · have hnext : nextTable m table idx =
          some (m.physToVirt (pteGetAddr (entry m table idx)).toNat) := if_pos hpresent
      have hdescend : descend last m table (idx :: path) =
          descend last m (m.physToVirt (pteGetAddr (entry m table idx)).toNat) path := by
        rw [descend, stepDown, getNextLevel_present hpresent, ifNull_some]
      rw [hdescend, ih, walk, hnext, Option.bind_some]
    · have hnext : nextTable m table idx = none := if_neg hpresent
      rw [descend, stepDown_absent hm hpresent fun table m' hm' => descend_keeps last hm' table path,
        walk, hnext, Option.bind_none]
      simp

/-- `virt_to_phys` changes neither the page allocator nor a table exactly when the tables above the
last-level entry are there, or there is no page left for one that is not. -/
theorem virtToPhys_unchanged_iff (hm : m.Ok) (space : AddressSpace) (virtAddr : Nat)
    (tables : Nat → Prop) :
    Unchanged tables m (space.virtToPhys m virtAddr).2 ↔
      (walk (nextTable m) space.pml4 (tablePath virtAddr)).isSome ∨ Pmm.Exhausted m.pmm := by
  have hwalk : virtToPte m space.pml4 virtAddr =
      descend (fun pml1 => pml1 + 8 * pml1Offset virtAddr) m space.pml4 (tablePath virtAddr) := rfl
  have hquery : (space.virtToPhys m virtAddr).2 = (virtToPte m space.pml4 virtAddr).2 := by
    unfold AddressSpace.virtToPhys
    generalize virtToPte m space.pml4 virtAddr = result
    obtain ⟨pte, m'⟩ := result
    cases pte with
    | none => rfl
    | some pte =>
      rw [ifNull_some]
      split <;> rfl
  rw [hquery, hwalk]
  exact descend_unchanged_iff _ hm space.pml4 (tablePath virtAddr)

theorem bootSpace_unchanged_iff :
    bootMachine.Ok ∧ (Unchanged (fun _ => True) bootMachine (bootSpace.virtToPhys bootMachine 0x400000).2 ↔
      (walk (nextTable bootMachine) bootSpace.pml4 (tablePath 0x400000)).isSome ∨
        Pmm.Exhausted bootMachine.pmm) :=
  ⟨bootMachine_ok, virtToPhys_unchanged_iff bootMachine_ok bootSpace 0x400000 _⟩

/-- A query for an address that is not mapped takes three pages. -/
theorem virtToPhys_allocates :
    ¬∀ (m : Machine (Pmm.source 8 bootPmm_limit)) (space : AddressSpace) (virtAddr : Nat)
      (tables : Nat → Prop), m.Ok → Unchanged tables m (space.virtToPhys m virtAddr).2 := by
  intro h
  have hcursor := (h bootMachine bootSpace 0x400000 (fun _ => True) bootMachine_ok).cursor
  exact absurd hcursor (by decide +kernel)

end Vmm

end UmbraOS
