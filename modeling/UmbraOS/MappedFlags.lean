import UmbraOS.ElfSafety
import UmbraOS.MmapIsolation
import UmbraOS.VmmInstalled

namespace UmbraOS

open Vmm

/-- What an entry permits is what was asked for. -/
def Permits (e : BitVec 64) (writable executable : Prop) : Prop :=
  (e &&& pteWritable ≠ 0#64 ↔ writable) ∧ (e &&& pteNx ≠ 0#64 ↔ ¬executable)

/-- The address of a page sets none of the bits of a mask that is a single low or high bit. -/
theorem page_and_twoPow {page i : Nat} (h : page < 2 ^ 51) (hi : i < 12 ∨ i = 63) :
    BitVec.ofNat 64 (page * pageSize) &&& BitVec.twoPow 64 i = 0#64 := by
  have hbit : (page * 2 ^ 12).testBit i = false := by
    rw [Nat.testBit_mul_two_pow]
    rcases hi with hlow | rfl
    · rw [decide_eq_false (by omega), Bool.false_and]
    · rw [Nat.testBit_lt_two_pow h, Bool.and_false]
  rw [BitVec.and_twoPow, BitVec.getLsbD_ofNat, show page * pageSize = page * 2 ^ 12 from rfl, hbit,
    Bool.and_false]
  rfl

theorem permits_entry {x : Mapping} {page : Nat} {writable executable : Prop} (h : page < 2 ^ 51)
    (hx : x.phys = page * pageSize) :
    Permits x.entry writable executable ↔ Permits x.flags writable executable := by
  have hand : ∀ i, i < 12 ∨ i = 63 →
      x.entry &&& BitVec.twoPow 64 i = x.flags &&& BitVec.twoPow 64 i := by
    intro i hi
    rw [Mapping.entry, hx, or_and, page_and_twoPow h hi, BitVec.zero_or]
  have hwrite : x.entry &&& pteWritable = x.flags &&& pteWritable := hand 1 (by omega)
  have hnx : x.entry &&& pteNx = x.flags &&& pteNx := hand 63 (by omega)
  rw [Permits, Permits, hwrite, hnx]

/-- Flags that lost bit 63 permit what was asked for only if execution was. -/
theorem permits_lost {writable executable : Prop} [Decidable writable] :
    Permits (if writable then 7#64 else 5#64) writable executable ↔ executable := by
  have hnx : (if writable then 7#64 else 5#64) &&& pteNx = 0#64 := by
    split <;> decide
  have hwrite : (if writable then 7#64 else 5#64) &&& pteWritable ≠ 0#64 ↔ writable := by
    split
    next h => exact ⟨fun _ => h, fun _ => by decide⟩
    next h => exact ⟨fun hne => absurd (by decide) hne, fun hw => absurd hw h⟩
  rw [Permits, and_iff_right hwrite, hnx]
  exact ⟨fun h => not_not.mp fun hne => h.mpr hne rfl, fun h => ⟨fun hne => absurd rfl hne,
    fun hne => absurd h hne⟩⟩

variable {P : PageSource pageSize}

namespace AddressSpace

/-- The mappings of a range that come before one of them. -/
theorem rangeMappings_split {virtAddr physAddr turns : Nat} {flags : BitVec 64}
    {pre post : List Mapping} {x : Mapping}
    (h : rangeMappings virtAddr physAddr turns flags = pre ++ x :: post) :
    pre.length < turns ∧ pre = rangeMappings virtAddr physAddr pre.length flags ∧
      x = ⟨u64 (virtAddr + pre.length * pageSize), u64 (physAddr + pre.length * pageSize), flags⟩ := by
  have hlength := congrArg List.length h
  rw [rangeMappings, List.length_map, List.length_range, List.length_append,
    List.length_cons] at hlength
  have hlt : pre.length < turns := by omega
  have htake := congrArg (List.take pre.length) h
  have hget := congrArg (fun xs => xs[pre.length]?) h
  rw [List.take_left, rangeMappings, ← List.map_take, List.take_range,
    Nat.min_eq_left (by omega)] at htake
  simp only [rangeMappings, List.getElem?_map, List.getElem?_range hlt, Option.map_some,
    List.getElem?_append_right (Nat.le_refl pre.length), Nat.sub_self, List.getElem?_cons_zero] at hget
  exact ⟨hlt, htake.symm, (Option.some.inj hget).symm⟩

theorem mapping_at {virtAddr physAddr turns i : Nat} {flags : BitVec 64} (h : i < turns) :
    ∃ y ∈ rangeMappings virtAddr physAddr turns flags,
      y.virt = u64 (virtAddr + i * pageSize) ∧ y.flags = flags :=
  ⟨_, mem_rangeMappings.mpr ⟨i, h, rfl⟩, rfl, rfl⟩

end AddressSpace

namespace Mmap

variable (abi : VmFlags)

/-- The last-level entries that a call installs. -/
def installed (m : Machine P) (task : UserTask) (call : MmapCall) : List Mapping :=
  if Accepted abi call then
    task.addressSpace.installed (m.alloc (pages call)).2
      (mappings abi task call (m.alloc (pages call)).1)
  else []

/-- Every entry that a call installs permits what the caller asked for. -/
def Faithful (m : Machine P) (task : UserTask) (call : MmapCall) : Prop :=
  ∀ x ∈ installed abi m task call,
    Permits x.entry (call.prot &&& abi.protWrite ≠ 0#32) (call.prot &&& abi.protExec ≠ 0#32)

/-- Some page of a call is not mapped, and its tables are there or can be made. -/
def NewPage (m : Machine P) (task : UserTask) (call : MmapCall) : Prop :=
  ∃ i, i < pages call ∧ pte m task.addressSpace.pml4 (pageOf task call i) &&& ptePresent = 0#64 ∧
    tablePath (pageOf task call i) ∈ tablesFor m task call

/-- A call that maps a page asks for a page that can be executed. -/
def AsksExec (m : Machine P) (task : UserTask) (call : MmapCall) : Prop :=
  Accepted abi call → NewPage m task call → call.prot &&& abi.protExec ≠ 0#32

theorem pageFlags_lost (prot : BitVec 32) :
    pageFlags abi prot = if prot &&& abi.protWrite ≠ 0#32 then 7#64 else 5#64 := by
  unfold pageFlags
  simp only
  split <;> split <;> decide

variable {abi} {m : Machine P} {task : UserTask} {call : MmapCall}

theorem mappings_present {addr : Nat} {x : Mapping} (hx : x ∈ mappings abi task call addr) :
    x.flags &&& ptePresent ≠ 0#64 := by
  obtain ⟨i, -, rfl⟩ := AddressSpace.mem_rangeMappings.mp hx
  exact pageFlags_present abi call.prot

/-- An installed entry has the flags of its call, and its frame lies below bit 63: among pages
with the same entry only the first is installed. -/
theorem installed_spec (hP : P.Complete) (hm : m.Ok) (ht : Tables m task.addressSpace.pml4)
    {x : Mapping} (hx : x ∈ installed abi m task call) :
    x.flags = pageFlags abi call.prot ∧ ∃ page, page < 2 ^ 51 ∧ x.phys = page * pageSize := by
  rw [installed] at hx
  split at hx
  next hacc =>
    obtain ⟨pre, post, hsplit, hstores⟩ := AddressSpace.mem_installed.mp hx
    obtain ⟨hlt, hpre, rfl⟩ := AddressSpace.rangeMappings_split hsplit
    have hg := alloc_grows hm ht (pages call)
    have hsmall : pre.length < 2 ^ 36 := by
      by_contra hlarge
      obtain ⟨j, hj⟩ : ∃ j, j + 2 ^ 36 = pre.length := ⟨pre.length - 2 ^ 36, by omega⟩
      have hearlier : ∃ y ∈ pre, y.virt = u64 ((target task call).toNat + j * pageSize) ∧
          y.flags = pageFlags abi call.prot := by
        rw [hpre]
        exact AddressSpace.mapping_at (by omega)
      obtain ⟨y, hy, hvirt, hflags⟩ := hearlier
      have hsame : SamePage y.virt (u64 ((target task call).toNat + pre.length * pageSize)) := by
        rw [hvirt]
        refine (samePage_u64 _).trans (SamePage.trans ?_ (samePage_u64 _).symm)
        unfold SamePage pageSize
        omega
      refine installed_first hP hg.ok hg.tables hy ?_ hstores hsame
      rw [hflags]
      exact pageFlags_present abi call.prot
    refine ⟨rfl, ?_⟩
    have hb := hm.bound
    have ha := Machine.alloc_spec hm (Nat.lt_of_le_of_lt (Nat.zero_le _) hlt)
    generalize m.alloc (pages call) = r at ha
    cases ha with
    | refused =>
      refine ⟨pre.length, by omega, ?_⟩
      rw [Nat.zero_add]
      exact u64_of_lt (by unfold pageSize; omega)
    | run page _ _ _ inside =>
      refine ⟨page + pre.length, by omega, ?_⟩
      rw [← Nat.add_mul]
      exact u64_of_lt (by unfold pageSize; omega)
  next => cases hx

/-- A call installs an entry exactly if it maps a page. -/
theorem installed_iff_newPage (hP : P.Complete) (hm : m.Ok)
    (ht : Tables m task.addressSpace.pml4) (hacc : Accepted abi call) :
    (∃ x, x ∈ installed abi m task call) ↔ NewPage m task call := by
  have hg := alloc_grows hm ht (pages call)
  have hspec := sysMmap_pte abi hP hm ht hacc
  have hfinal : (sysMmap abi m task call).2.2 = task.addressSpace.mapAll (m.alloc (pages call)).2
      (mappings abi task call (m.alloc (pages call)).1) := by
    rw [sysMmap_accepted abi hacc]
  rw [installed, if_pos hacc]
  constructor
  · intro h
    obtain ⟨x, hx⟩ := h
    obtain ⟨hclear, hset⟩ := pte_of_installed hg.ok hg.tables (fun y hy => mappings_present hy) hx
    obtain ⟨i, hi, rfl⟩ := AddressSpace.mem_rangeMappings.mp (AddressSpace.mem_of_installed hx)
    rw [hg.pte] at hclear
    rw [← hfinal] at hset
    rcases hspec (pageOf task call i) with ⟨hsame, -⟩ | ⟨-, hin, -⟩
    · have hentry : pte m task.addressSpace.pml4 (pageOf task call i) &&& ptePresent ≠ 0#64 := by
        rw [← hsame]
        exact hset ▸ present_or (pageFlags_present abi call.prot)
      exact absurd hclear hentry
    · exact ⟨i, hi, hclear, hin⟩
  · intro h
    obtain ⟨i, hi, hclear, hin⟩ := h
    rcases hspec (pageOf task call i) with ⟨-, hset | hno | hnone⟩ | ⟨-, -, j, -, -, hentry⟩
    · exact absurd hclear hset
    · exact absurd rfl (hno i hi)
    · exact absurd hin hnone
    · have hchanged : pte (task.addressSpace.mapAll (m.alloc (pages call)).2
          (mappings abi task call (m.alloc (pages call)).1)) task.addressSpace.pml4
            (pageOf task call i) ≠
          pte (m.alloc (pages call)).2 task.addressSpace.pml4 (pageOf task call i) := by
        intro he
        rw [← hfinal, hentry, hg.pte] at he
        rw [← he] at hclear
        exact present_or (pageFlags_present abi call.prot) hclear
      obtain ⟨x, hx, -⟩ := mem_installed_of_changed hg.ok hg.tables
        (fun y hy => mappings_present hy) hchanged
      exact ⟨x, hx⟩

/-- A call permits what it was asked for exactly if it was asked for executable pages, or maps
none. -/
theorem faithful_iff (hP : P.Complete) (hm : m.Ok) (ht : Tables m task.addressSpace.pml4) :
    Faithful abi m task call ↔ AsksExec abi m task call := by
  have hpermits : ∀ x ∈ installed abi m task call,
      (Permits x.entry (call.prot &&& abi.protWrite ≠ 0#32) (call.prot &&& abi.protExec ≠ 0#32) ↔
        call.prot &&& abi.protExec ≠ 0#32) := by
    intro x hx
    obtain ⟨hflags, page, hpage, hphys⟩ := installed_spec hP hm ht hx
    rw [permits_entry hpage hphys, hflags, pageFlags_lost]
    exact permits_lost
  constructor
  · intro h hacc hnew
    obtain ⟨x, hx⟩ := (installed_iff_newPage hP hm ht hacc).mpr hnew
    exact (hpermits x hx).mp (h x hx)
  · intro h x hx
    refine (hpermits x hx).mpr ?_
    by_cases hacc : Accepted abi call
    · exact h hacc ((installed_iff_newPage hP hm ht hacc).mp ⟨x, hx⟩)
    · rw [installed, if_neg hacc] at hx
      cases hx

end Mmap

namespace Elf

variable {call : ElfCall} {s : Loader P}

/-- The loop comes to the `PT_LOAD` case with this header. -/
def LoadsSegment (call : ElfCall) (s : Loader P) (phdr : Phdr) (t : Loader P) : Prop :=
  ∃ header k u ret, Comes call s header k u ∧ fetchPhdr call header k u = .ok (ret, phdr, t) ∧
    ret ≠ 0#64 ∧ phdr.type = ptLoad

/-- The last-level entries that `map_range` installs for a segment. -/
def installed (call : ElfCall) (phdr : Phdr) (s : Loader P) : List Mapping :=
  let r := s.heap.machine.calloc (pageCount phdr)
  if r.1 = 0 then [] else call.space.installed r.2 (segmentMappings call phdr r.1)

/-- Every entry that is installed for a segment permits what the segment asks for. -/
def Faithful (call : ElfCall) (s : Loader P) : Prop :=
  ∀ phdr t, LoadsSegment call s phdr t → ∀ x ∈ installed call phdr t,
    Permits x.entry (phdr.flags &&& pfW ≠ 0#32) (phdr.flags &&& pfX ≠ 0#32)

/-- Every segment for which a page is mapped is executable. -/
def AsksExec (call : ElfCall) (s : Loader P) : Prop :=
  ∀ phdr t, LoadsSegment call s phdr t → installed call phdr t ≠ [] → phdr.flags &&& pfX ≠ 0#32

theorem segmentFlags_lost (flags : BitVec 32) :
    segmentFlags flags = if flags &&& pfW ≠ 0#32 then 7#64 else 5#64 := by
  unfold segmentFlags
  simp only
  split <;> split <;> decide

theorem LoadsSegment.ok {phdr : Phdr} {t : Loader P} (hm : s.heap.machine.Ok)
    (h : LoadsSegment call s phdr t) : t.heap.machine.Ok := by
  obtain ⟨header, k, u, ret, hcomes, hphdr, -⟩ := h
  rw [fetchPhdr_heap hphdr]
  exact hcomes.ok hm

theorem installed_spec {phdr : Phdr} (hm : s.heap.machine.Ok) {x : Mapping}
    (hx : x ∈ installed call phdr s) :
    x.flags = segmentFlags phdr.flags ∧ ∃ page, page < 2 ^ 51 ∧ x.phys = page * pageSize := by
  simp only [installed] at hx
  split at hx
  next => cases hx
  next hne =>
    obtain ⟨page, haddr, hin⟩ := Machine.calloc_run hm hne
    obtain ⟨i, hi, rfl⟩ := AddressSpace.mem_rangeMappings.mp (AddressSpace.mem_of_installed hx)
    have hb := hm.bound
    refine ⟨rfl, page + i, by omega, ?_⟩
    rw [haddr, ← Nat.add_mul]
    exact u64_of_lt (by unfold pageSize; omega)

/-- A segment permits what it asks for exactly if it asks for executable pages, or maps none. -/
theorem faithful_iff (hm : s.heap.machine.Ok) : Faithful call s ↔ AsksExec call s := by
  have hpermits : ∀ phdr t, LoadsSegment call s phdr t → ∀ x ∈ installed call phdr t,
      (Permits x.entry (phdr.flags &&& pfW ≠ 0#32) (phdr.flags &&& pfX ≠ 0#32) ↔
        phdr.flags &&& pfX ≠ 0#32) := by
    intro phdr t ht x hx
    obtain ⟨hflags, page, hpage, hphys⟩ := installed_spec (ht.ok hm) hx
    rw [permits_entry hpage hphys, hflags, segmentFlags_lost]
    exact permits_lost
  constructor
  · intro h phdr t ht hne
    obtain ⟨x, hx⟩ := List.exists_mem_of_ne_nil _ hne
    exact (hpermits phdr t ht x hx).mp (h phdr t ht x hx)
  · intro h phdr t ht x hx
    exact (hpermits phdr t ht x hx).mpr (h phdr t ht (List.ne_nil_of_mem hx))

/-- The header that the loader reads of the file with one segment. -/
theorem oneSegment_fetched {header : Ehdr} {k : Nat} {u : Loader (Pmm.source 8 bootPmm_limit)}
    (hc : Comes bootCall (bootLoader (segmentFile 1#8)) header k u) : ∃ ret t,
      fetchPhdr bootCall header k u = .ok (ret, filePhdr (oneSegment 1#8) 0, t) ∧ ret ≠ 0#64 ∧
      t.heap = u.heap := by
  obtain ⟨rfl, hbehind⟩ := (boot_opens 1#8).comes_behind hc
  have hk := hc.counted
  rw [headerSeen_file bootCall (show 0 < (oneSegment 1#8).fileSize by decide)] at hk ⊢
  have hcount : (fileHeader (oneSegment 1#8)).phnum = 1 := by decide
  obtain rfl : k = 0 := by omega
  obtain ⟨ret, t, hfetch, hret, -, hheap, -⟩ :=
    fetchPhdr_spec (boot_opens 1#8).fd hbehind (fileHeader (oneSegment 1#8)) 0
  rw [phdrSeen_file bootCall (show 121 < 2 ^ 64 by decide)
    (show filePhdrAt (oneSegment 1#8) 0 < (oneSegment 1#8).fileSize by decide)] at hfetch
  exact ⟨ret, t, hfetch, hret, hheap⟩

theorem oneSegment_installs : ∃ phdr t,
    LoadsSegment bootCall (bootLoader (segmentFile 1#8)) phdr t ∧ installed bootCall phdr t ≠ [] := by
  obtain ⟨ret, u, hheader, hret, -, -⟩ := fetchHeader_spec (boot_opens 1#8).fd (boot_opens 1#8).behind
  rw [headerSeen_file bootCall (show 0 < (oneSegment 1#8).fileSize by decide)] at hheader
  have hc : Comes bootCall (bootLoader (segmentFile 1#8)) (fileHeader (oneSegment 1#8)) 0 u :=
    ⟨⟨ret, u, hheader, hret, .start⟩, by decide, by decide, by decide⟩
  obtain ⟨ret', t, hfetch, hret', hheap⟩ := oneSegment_fetched hc
  refine ⟨_, t, ⟨_, 0, u, ret', hc, hfetch, hret', by decide⟩, ?_⟩
  rw [installed, hheap, fetchHeader_heap hheader]
  decide +kernel

end Elf

/-- The entries that `sys_mmap` and `Elf::load` install permit what was asked for exactly if
every page that they map is to be executable. -/
theorem permissions_iff (abi : VmFlags) {size : Nat} {hs : u64 (size * pageSize) ≤ 2 ^ 52} :
    (∀ (m : Machine (Pmm.source size hs)) (task : UserTask) (call : MmapCall), m.Ok →
      Tables m task.addressSpace.pml4 →
      (Mmap.Faithful abi m task call ↔ Mmap.AsksExec abi m task call)) ∧
    ∀ (call : ElfCall) (s : Loader (Pmm.source size hs)), s.heap.machine.Ok →
      (Elf.Faithful call s ↔ Elf.AsksExec call s) :=
  ⟨fun _ _ _ hm ht => Mmap.faithful_iff (Pmm.source_complete size hs) hm ht,
    fun _ _ hm => Elf.faithful_iff hm⟩

/-- A page to be read and executed. -/
def codePage : MmapCall := ⟨0#64, 4096#64, 5#32, 34#32, -1#32, 0#64⟩

/-- Code pages of `sys_mmap` and of a file with one segment. -/
theorem permissions_iff_boot : Mmap.Faithful Mmap.linuxFlags bootMachine Mmap.bootTask codePage ∧
    Elf.Faithful bootCall (bootLoader (Elf.segmentFile 1#8)) ∧
    ∃ phdr t, Elf.LoadsSegment bootCall (bootLoader (Elf.segmentFile 1#8)) phdr t ∧
      Elf.installed bootCall phdr t ≠ [] := by
  obtain ⟨hmmap, helf⟩ : (_ ∧ _ : Prop) := permissions_iff Mmap.linuxFlags
  refine ⟨(hmmap bootMachine Mmap.bootTask codePage bootMachine_ok bootMachine_tables).mpr ?_,
    (helf bootCall (bootLoader (Elf.segmentFile 1#8)) bootMachine_ok).mpr ?_, Elf.oneSegment_installs⟩
  · intro _ _
    exact (by decide : codePage.prot &&& Mmap.linuxFlags.protExec ≠ 0#32)
  · rintro phdr t ⟨header, k, u, ret, hc, hfetch, -, -⟩ -
    obtain ⟨ret', t', hfetch', -, -⟩ := Elf.oneSegment_fetched hc
    cases hfetch.symm.trans hfetch'
    decide

/-- A page to be read and written can be executed too. -/
theorem writable_page_executable :
    ¬Mmap.Faithful Mmap.linuxFlags bootMachine Mmap.bootTask (Mmap.onePage 0#64) := by
  have hnx : (Mmap.installed Mmap.linuxFlags bootMachine Mmap.bootTask (Mmap.onePage 0#64)).any
      (fun x => decide (x.entry &&& pteNx = 0#64)) = true := by
    decide +kernel
  obtain ⟨x, hx, hclear⟩ := List.any_eq_true.mp hnx
  intro h
  exact (h x hx).2.mpr (by decide) (of_decide_eq_true hclear)

end UmbraOS
