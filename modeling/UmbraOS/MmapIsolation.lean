import UmbraOS.VmmSupply

namespace UmbraOS

namespace Mmap

open Vmm

variable {P : PageSource pageSize} (abi : VmFlags)

/-- The frames that a call of `Pmm::alloc` allocates. -/
def AllocatedBy (m : Machine P) (n page : Nat) : Prop :=
  (m.alloc n).1 ≠ 0 ∧ (m.alloc n).1 / pageSize ≤ page ∧ page < (m.alloc n).1 / pageSize + n

/-- Every entry that a call installs is for a page of the user and maps it to a frame that was
allocated for the call, and no translation of the kernel changes. -/
def Isolated (m : Machine P) (task : UserTask) (call : MmapCall) : Prop :=
  (∀ w, pte (sysMmap abi m task call).2.2 task.addressSpace.pml4 w ≠
      pte m task.addressSpace.pml4 w →
    LowerHalf w ∧ ∃ page, AllocatedBy m (pages call) page ∧
      pteGetAddr (pte (sysMmap abi m task call).2.2 task.addressSpace.pml4 w) =
        BitVec.ofNat 64 (page * pageSize)) ∧
  ∀ w, ¬LowerHalf w → (task.addressSpace.virtToPhys (sysMmap abi m task call).2.2 w).1 =
    (task.addressSpace.virtToPhys m w).1

/-- The allocator has a run of free pages. -/
def RunFree (m : Machine P) (n : Nat) : Prop :=
  ∃ page, page + n ≤ P.bound ∧ ∀ i, page ≤ i → i < page + n → ¬m.Used i

open Classical in
/-- The tables there are before a call, and the pages left for more of them. -/
noncomputable def supplyFor (m : Machine P) (task : UserTask) (call : MmapCall) : Supply where
  tables := (supply m task.addressSpace.pml4).tables
  free := if RunFree m (pages call) then freePages m - pages call else freePages m

/-- The address of page `i` of a call. -/
def pageOf (task : UserTask) (call : MmapCall) (i : Nat) : Nat :=
  u64 ((target task call).toNat + i * pageSize)

/-- The tables that there are or that can be made for the pages of a call, in order. -/
noncomputable def tablesFor (m : Machine P) (task : UserTask) (call : MmapCall) :
    Set (List (Fin 512)) :=
  (((List.range (pages call)).flatMap fun i => tablesOf (pageOf task call i)).foldl Supply.demand
    (supplyFor m task call)).tables

/-- Every page of a call that is not mapped, and whose tables are there or can be made, is a
page of the user, and there is a run of free frames for the call. -/
def Confined (m : Machine P) (task : UserTask) (call : MmapCall) : Prop :=
  ∀ i, i < pages call →
    pte m task.addressSpace.pml4 (pageOf task call i) &&& ptePresent = 0#64 →
    tablePath (pageOf task call i) ∈ tablesFor m task call →
    LowerHalf (pageOf task call i) ∧ RunFree m (pages call)

theorem alloc_run_iff (hP : P.Complete) {m : Machine P} (hm : m.Ok) {n : Nat} (hn : 0 < n) :
    (m.alloc n).1 ≠ 0 ↔ RunFree m n := by
  rw [Machine.alloc_of_pos m hn]
  constructor
  · intro hr
    obtain ⟨page, -, hin, hfresh, -⟩ := P.alloc_page n m.pmm hm.pmm hr
    exact ⟨page, hin, hfresh⟩
  · intro h hz
    obtain ⟨page, hin, hfresh⟩ := h
    obtain ⟨i, hle, hlt, hu⟩ := hP n m.pmm hm.pmm hn hz page hin
    exact hfresh i hle hlt hu

/-- What an allocation leaves for tables. -/
theorem supply_alloc (hP : P.Complete) {m : Machine P} (hm : m.Ok) (task : UserTask)
    (call : MmapCall) :
    supply (m.alloc (pages call)).2 task.addressSpace.pml4 = supplyFor m task call := by
  rcases Nat.eq_zero_or_pos (pages call) with hzero | hpos
  · refine Supply.ext ?_ ?_
    · rw [hzero]
      rfl
    · have hfree : RunFree m (pages call) := by
        rw [hzero]
        exact ⟨0, Nat.zero_le _, fun i _ hi => absurd hi (Nat.not_lt_zero i)⟩
      rw [supplyFor, if_pos hfree, hzero]
      rfl
  · have hiff := alloc_run_iff hP hm hpos
    have ha := Machine.alloc_spec hm hpos
    unfold supplyFor
    generalize m.alloc (pages call) = r at ha hiff
    cases ha with
    | refused pmm ok used =>
      have hno : ¬RunFree m (pages call) := fun h => hiff.mpr h rfl
      rw [if_neg hno]
      exact Supply.ext rfl (freePages_congr used)
    | run page pmm ok positive inside fresh used =>
      have hne : page * pageSize ≠ 0 := Nat.mul_ne_zero (by omega) (by decide)
      rw [if_pos (hiff.mp hne)]
      refine Supply.ext rfl ?_
      have hcount : freePages (⟨m.mem, pmm, m.hhdm, m.refused⟩ : Machine P) + pages call =
          freePages m := freePages_run inside fresh used
      exact Nat.eq_sub_of_add_eq hcount

/-- The frames of a run that was allocated. -/
theorem alloc_frame {m : Machine P} (hm : m.Ok) {n i : Nat} (hi : i < n)
    (hr : (m.alloc n).1 ≠ 0) (prot : BitVec 32) : ∃ page, AllocatedBy m n page ∧
      pteGetAddr (BitVec.ofNat 64 (u64 ((m.alloc n).1 + i * pageSize)) ||| pageFlags abi prot) =
        BitVec.ofNat 64 (page * pageSize) := by
  have hn : 0 < n := Nat.lt_of_le_of_lt (Nat.zero_le i) hi
  have hb := hm.bound
  obtain ⟨page, haddr, hin, -⟩ : ∃ page, (m.alloc n).1 = page * pageSize ∧ page + n ≤ P.bound ∧
      True := by
    rw [Machine.alloc_of_pos m hn] at hr ⊢
    obtain ⟨page, haddr, hin, -⟩ := P.alloc_page n m.pmm hm.pmm hr
    exact ⟨page, haddr, hin, trivial⟩
  have hdiv : (m.alloc n).1 / pageSize = page := by
    rw [haddr]
    exact Nat.mul_div_cancel page (by decide)
  have hphys : u64 ((m.alloc n).1 + i * pageSize) = (page + i) * pageSize := by
    rw [haddr, ← Nat.add_mul]
    exact u64_of_lt (by unfold pageSize; omega)
  refine ⟨page + i, ⟨hr, ?_, ?_⟩, ?_⟩
  · omega
  · omega
  · rw [hphys]
    exact pteGetAddr_entry (by omega) (pageFlags_addr abi prot)

/-- The entries after a call that passes the check of its arguments. -/
theorem sysMmap_pte (hP : P.Complete) {m : Machine P} {task : UserTask} {call : MmapCall}
    (hm : m.Ok) (ht : Tables m task.addressSpace.pml4) (hacc : Accepted abi call) (w : Nat) :
    pte (sysMmap abi m task call).2.2 task.addressSpace.pml4 w =
        pte m task.addressSpace.pml4 w ∧
        (pte m task.addressSpace.pml4 w &&& ptePresent ≠ 0#64 ∨
          (∀ i, i < pages call → ¬SamePage (pageOf task call i) w) ∨
          tablePath w ∉ tablesFor m task call) ∨
      pte m task.addressSpace.pml4 w &&& ptePresent = 0#64 ∧
        tablePath w ∈ tablesFor m task call ∧
        ∃ i, i < pages call ∧ SamePage (pageOf task call i) w ∧
          pte (sysMmap abi m task call).2.2 task.addressSpace.pml4 w =
            BitVec.ofNat 64 (u64 ((m.alloc (pages call)).1 + i * pageSize)) |||
              pageFlags abi call.prot := by
  have hg := alloc_grows hm ht (pages call)
  have hsupply := supply_alloc hP hm task call
  have hpresent : ∀ x ∈ mappings abi task call (m.alloc (pages call)).1,
      x.flags &&& ptePresent ≠ 0#64 := by
    intro x hx
    obtain ⟨i, -, rfl⟩ := AddressSpace.mem_rangeMappings.mp hx
    exact pageFlags_present abi call.prot
  have htables : ((tablesOfAll (mappings abi task call (m.alloc (pages call)).1)).foldl
      Supply.demand (supply (m.alloc (pages call)).2 task.addressSpace.pml4)).tables =
      tablesFor m task call := by
    rw [hsupply, tablesOfAll, mappings, AddressSpace.rangeMappings, List.flatMap_map]
    rfl
  have hspec := mapAll_pte_supply hP hg.ok hg.tables hpresent w
  rw [htables, hg.pte] at hspec
  rw [sysMmap_accepted abi hacc]
  rcases hspec with ⟨hsame, hwhy⟩ | ⟨hclear, hin, x, hx, hpage, hentry⟩
  · refine Or.inl ⟨hsame, ?_⟩
    rcases hwhy with hset | hno | hnone
    · exact Or.inl hset
    · refine Or.inr (Or.inl fun i hi => hno _ (AddressSpace.mem_rangeMappings.mpr ⟨i, hi, rfl⟩))
    · exact Or.inr (Or.inr hnone)
  · obtain ⟨i, hi, rfl⟩ := AddressSpace.mem_rangeMappings.mp hx
    exact Or.inr ⟨hclear, hin, i, hi, hpage, hentry⟩

/-- A call is isolated exactly when what it maps is confined to the user's half and to free
frames. -/
theorem isolated_iff_confined (hP : P.Complete) {m : Machine P} {task : UserTask}
    {call : MmapCall} (hm : m.Ok) (ht : Tables m task.addressSpace.pml4)
    (hacc : Accepted abi call) : Isolated abi m task call ↔ Confined m task call := by
  have hspec := sysMmap_pte abi hP hm ht hacc
  constructor
  · intro h i hi hclear hin
    rcases hspec (pageOf task call i) with ⟨-, hset | hno | hnone⟩ | ⟨-, -, j, -, -, hentry⟩
    · exact absurd hclear hset
    · exact absurd rfl (hno i hi)
    · exact absurd hin hnone
    · have hne : pte (sysMmap abi m task call).2.2 task.addressSpace.pml4 (pageOf task call i) ≠
          pte m task.addressSpace.pml4 (pageOf task call i) := by
        intro he
        rw [← he, hentry] at hclear
        exact present_or (pageFlags_present abi call.prot) hclear
      obtain ⟨hlow, page, hpage, -⟩ := h.1 _ hne
      exact ⟨hlow, (alloc_run_iff hP hm (by omega)).mp hpage.1⟩
  · intro h
    have hinstall : ∀ w, pte (sysMmap abi m task call).2.2 task.addressSpace.pml4 w ≠
        pte m task.addressSpace.pml4 w → LowerHalf w ∧ ∃ page,
          AllocatedBy m (pages call) page ∧
          pteGetAddr (pte (sysMmap abi m task call).2.2 task.addressSpace.pml4 w) =
            BitVec.ofNat 64 (page * pageSize) := by
      intro w hw
      rcases hspec w with ⟨hsame, -⟩ | ⟨hclear, hin, i, hi, hpage, hentry⟩
      · exact absurd hsame hw
      · have hpath := ((samePage_iff _ _).mp hpage).1
        rw [← hpage.pte] at hclear
        rw [← hpath] at hin
        obtain ⟨hlow, hfree⟩ := h i hi hclear hin
        have hr := (alloc_run_iff hP hm (Nat.lt_of_le_of_lt (Nat.zero_le i) hi)).mpr hfree
        rw [hentry]
        exact ⟨hlow.of_samePage hpage, alloc_frame abi hm hi hr call.prot⟩
    refine ⟨hinstall, fun w hw => ?_⟩
    have hk := (sysMmap_present abi call hm ht).1
    rw [virtToPhys_eq hk.ok hk.tables, virtToPhys_eq hm ht]
    by_contra hne
    exact hw (hinstall w fun he => hne (by rw [he])).1

/-- `sys_mmap` over the physical memory manager. -/
theorem mmap_isolated_iff {size : Nat} {hs : u64 (size * pageSize) ≤ 2 ^ 52}
    {m : Machine (Pmm.source size hs)} {task : UserTask} {call : MmapCall} (hm : m.Ok)
    (ht : Tables m task.addressSpace.pml4) (hacc : Accepted abi call) :
    Isolated abi m task call ↔ Confined m task call :=
  isolated_iff_confined abi (Pmm.source_complete size hs) hm ht hacc

theorem onePage_isolated : Isolated linuxFlags bootMachine bootTask (onePage 0#64) := by
  have hacc : Accepted linuxFlags (onePage 0#64) := by decide
  refine (mmap_isolated_iff linuxFlags bootMachine_ok bootMachine_tables hacc).mpr ?_
  intro i hi _ _
  have hzero : i = 0 := Nat.lt_one_iff.mp hi
  subst hzero
  refine ⟨by unfold LowerHalf; decide, 2, by decide, fun i hle hlt => ?_⟩
  have htwo : i = 2 := by
    have hpages : pages (onePage 0#64) = 1 := by decide
    rw [hpages] at hlt
    omega
  subst htwo
  exact show ¬bootPmm.bitmap.get 2 = true by decide

/-- A hint in the kernel's half is mapped for the user. -/
theorem kernelHint_not_isolated :
    ¬Isolated linuxFlags bootMachine bootTask (onePage 0xffff900000000000#64) := by
  intro h
  have hset : pte (sysMmap linuxFlags bootMachine bootTask
      (onePage 0xffff900000000000#64)).2.2 bootSpace.pml4 0xffff900000000000 ≠ 0#64 := by
    decide +kernel
  have hnew : pte (sysMmap linuxFlags bootMachine bootTask
      (onePage 0xffff900000000000#64)).2.2 bootSpace.pml4 0xffff900000000000 ≠
      pte bootMachine bootSpace.pml4 0xffff900000000000 := by
    rw [boot_pte]
    exact hset
  exact absurd (h.1 _ hnew).1 (by unfold LowerHalf; decide)

end Mmap

end UmbraOS
