import UmbraOS.AddressSpaces
import UmbraOS.MemoryMap
import UmbraOS.VmmRange

namespace UmbraOS

/-- The addresses that the linker and the bootloader give to the image of the kernel. -/
structure KernelImage where
  textStart : Nat
  textEnd : Nat
  rodataStart : Nat
  rodataEnd : Nat
  dataStart : Nat
  dataEnd : Nat
  virtualBase : Nat
  physicalBase : Nat

/-- `IO_TO_PHYS`. -/
def KernelImage.ioToPhys (image : KernelImage) (addr : Nat) : Nat :=
  u64 (sub64 addr image.virtualBase + image.physicalBase)

variable {P : PageSource pageSize}

def AddressSpace.mapIoRange (space : AddressSpace) (image : KernelImage) (m : Machine P)
    (startAddr endAddr : Nat) (flags : BitVec 64) : Machine P :=
  (List.range ((endAddr - startAddr + pageSize - 1) / pageSize)).foldl (fun m i =>
    space.map m (startAddr + i * pageSize) (image.ioToPhys (startAddr + i * pageSize)) flags) m

namespace Vmm

def fourGiB : Nat := 0x100000000

/-- The flags of the direct map. -/
def directFlags : BitVec 64 := ptePresent ||| pteWritable ||| pteNx

/-- The pages of a region from 4 GiB on. -/
def mapEntry (space : AddressSpace) (hhdm : Nat) (m : Machine P) (e : MemmapEntry) : Machine P :=
  let base := alignDown e.base pageSize
  let top := alignUp (u64 (e.base + e.length)) pageSize
  if top ≤ fourGiB then m
  else (List.range' (base / pageSize) ((top - base) / pageSize)).foldl (fun m j =>
    if j * pageSize < fourGiB then m
    else space.map m (u64 (j * pageSize + hhdm)) (j * pageSize) directFlags) m

/-- `init`, with the memory map as it finds it; the new space is not loaded into `cr3`. -/
def init (image : KernelImage) (m : Machine P) (memmap : List MemmapEntry) :
    AddressSpace × Machine P :=
  let hhdm := m.hhdm
  let (space, m) := initSpace m
  let m := space.mapIoRange image m (alignDown image.textStart pageSize)
    (alignUp image.textEnd pageSize) ptePresent
  let m := space.mapIoRange image m (alignDown image.rodataStart pageSize)
    (alignUp image.rodataEnd pageSize) (ptePresent ||| pteNx)
  let m := space.mapIoRange image m (alignDown image.dataStart pageSize)
    (alignUp image.dataEnd pageSize) (ptePresent ||| pteWritable ||| pteNx)
  let m := (List.range' 1 (fourGiB / pageSize - 1)).foldl (fun m j =>
    space.map m (u64 (j * pageSize + hhdm)) (j * pageSize) directFlags) m
  (space, memmap.foldl (mapEntry space hhdm) m)

/-- The calls of `map` that a loop of `init` over a section makes. -/
def ioMappings (image : KernelImage) (startAddr endAddr : Nat) (flags : BitVec 64) :
    List Mapping :=
  (List.range ((endAddr - startAddr + pageSize - 1) / pageSize)).map fun i =>
    ⟨startAddr + i * pageSize, image.ioToPhys (startAddr + i * pageSize), flags⟩

/-- A page of the direct map. -/
def directMapping (hhdm page : Nat) : Mapping :=
  ⟨u64 (page * pageSize + hhdm), page * pageSize, directFlags⟩

/-- The pages of a region that `init` maps for it. -/
def entryPages (e : MemmapEntry) : List Nat :=
  let base := alignDown e.base pageSize
  let top := alignUp (u64 (e.base + e.length)) pageSize
  if top ≤ fourGiB then []
  else (List.range' (base / pageSize) ((top - base) / pageSize)).filter fun j =>
    fourGiB ≤ j * pageSize

/-- The pages of the direct map in the order in which they are mapped. -/
def directPages (memmap : List MemmapEntry) : List Nat :=
  List.range' 1 (fourGiB / pageSize - 1) ++ memmap.flatMap entryPages

/-- The sections of the image with their flags. -/
def sections (image : KernelImage) : List (Nat × Nat × BitVec 64) :=
  [(image.textStart, image.textEnd, ptePresent),
    (image.rodataStart, image.rodataEnd, ptePresent ||| pteNx),
    (image.dataStart, image.dataEnd, ptePresent ||| pteWritable ||| pteNx)]

def imageMappings (image : KernelImage) : List Mapping :=
  (sections image).flatMap fun s =>
    ioMappings image (alignDown s.1 pageSize) (alignUp s.2.1 pageSize) s.2.2

def initMappings (image : KernelImage) (hhdm : Nat) (memmap : List MemmapEntry) :
    List Mapping :=
  imageMappings image ++ (directPages memmap).map (directMapping hhdm)

variable {space : AddressSpace}

theorem mapAll_append (m : Machine P) (maps maps' : List Mapping) :
    space.mapAll m (maps ++ maps') = space.mapAll (space.mapAll m maps) maps' :=
  List.foldl_append

theorem mapIoRange_eq (image : KernelImage) (m : Machine P) (startAddr endAddr : Nat)
    (flags : BitVec 64) : space.mapIoRange image m startAddr endAddr flags =
      space.mapAll m (ioMappings image startAddr endAddr flags) := by
  rw [AddressSpace.mapAll, ioMappings, List.foldl_map]
  rfl

theorem mapEntry_eq (hhdm : Nat) (m : Machine P) (e : MemmapEntry) :
    mapEntry space hhdm m e = space.mapAll m ((entryPages e).map (directMapping hhdm)) := by
  rw [AddressSpace.mapAll, List.foldl_map]
  simp only [mapEntry, entryPages]
  split
  next => rfl
  next =>
    rw [List.foldl_filter]
    congr 1
    funext m j
    by_cases hj : j * pageSize < fourGiB
    · rw [if_pos hj, if_neg (by simpa using hj)]
    · rw [if_neg hj, if_pos (by simpa using hj)]
      rfl

theorem mapEntries_eq (hhdm : Nat) (m : Machine P) (memmap : List MemmapEntry) :
    memmap.foldl (mapEntry space hhdm) m =
      space.mapAll m ((memmap.flatMap entryPages).map (directMapping hhdm)) := by
  induction memmap generalizing m with
  | nil => rfl
  | cons e memmap ih =>
    rw [List.foldl_cons, mapEntry_eq, ih, List.flatMap_cons, List.map_append, mapAll_append]

theorem init_eq (image : KernelImage) (m : Machine P) (memmap : List MemmapEntry) :
    init image m memmap = ((initSpace m).1,
      (initSpace m).1.mapAll (initSpace m).2 (initMappings image m.hhdm memmap)) := by
  have hdevices : ∀ (space : AddressSpace) (m' : Machine P),
      (List.range' 1 (fourGiB / pageSize - 1)).foldl (fun m' j =>
        space.map m' (u64 (j * pageSize + m.hhdm)) (j * pageSize) directFlags) m' =
      space.mapAll m' ((List.range' 1 (fourGiB / pageSize - 1)).map (directMapping m.hhdm)) := by
    intro space m'
    rw [AddressSpace.mapAll, List.foldl_map]
    rfl
  rw [init]
  simp only [mapIoRange_eq, mapEntries_eq, hdevices]
  rw [initMappings, imageMappings, directPages, List.map_append]
  simp only [sections, List.flatMap_cons, List.flatMap_nil, List.append_nil, mapAll_append]

/-- What the bootloader and the linker script promise: all regions and the first 4 GiB lie in
the window of the direct map, which ends below the image of the kernel, and usable regions
consist of whole pages. -/
structure Booted (hhdm : Nat) (image : KernelImage) (memmap : List MemmapEntry) : Prop where
  aligned : pageSize ∣ hhdm
  higher : 2 ^ 64 - 2 ^ 47 ≤ hhdm
  imageAligned : pageSize ∣ image.virtualBase
  top : image.virtualBase < 2 ^ 64
  sections : ∀ s ∈ sections image, image.virtualBase ≤ s.1 ∧ s.2.1 + pageSize ≤ 2 ^ 64
  devices : fourGiB + hhdm ≤ image.virtualBase
  regions : ∀ e ∈ memmap, e.base + e.length + hhdm ≤ image.virtualBase
  usable : ∀ e ∈ memmap, e.type = .usable → e.PageAligned

/-- The page has its place in the window of the direct map. -/
def InWindow (hhdm : Nat) (image : KernelImage) (page : Nat) : Prop :=
  page * pageSize + pageSize + hhdm ≤ image.virtualBase

variable {hhdm : Nat} {image : KernelImage} {memmap : List MemmapEntry}

theorem imageMappings_above (hb : Booted hhdm image memmap) {x : Mapping}
    (hx : x ∈ imageMappings image) : image.virtualBase ≤ x.virt ∧ x.virt < 2 ^ 64 := by
  obtain ⟨s, hs, hx⟩ := List.mem_flatMap.mp hx
  obtain ⟨i, hi, rfl⟩ := List.mem_map.mp hx
  have hi := List.mem_range.mp hi
  obtain ⟨hstart, hend⟩ := hb.sections s hs
  obtain ⟨base, hbase⟩ := hb.imageAligned
  have hup : alignUp s.2.1 pageSize = (s.2.1 + 4095) / 4096 * 4096 :=
    alignUp_page (by simp only [pageSize] at hend; omega)
  rw [hup] at hi
  simp only [alignDown, pageSize] at hbase hstart hend hi ⊢
  omega

theorem entryPages_iff (hb : Booted hhdm image memmap) {e : MemmapEntry} (he : e ∈ memmap)
    (page : Nat) : page ∈ entryPages e ↔ e.Covers page ∧ fourGiB ≤ page * pageSize := by
  have hregion := hb.regions e he
  have htop := hb.top
  have hhigh := hb.higher
  have hsum : u64 (e.base + e.length) = e.base + e.length := u64_of_lt (by omega)
  have hup : alignUp (e.base + e.length) pageSize = (e.base + e.length + 4095) / 4096 * 4096 :=
    alignUp_page (by omega)
  simp only [entryPages, hsum, hup, MemmapEntry.Covers]
  split
  next hlow =>
    refine iff_of_false List.not_mem_nil ?_
    simp only [fourGiB, pageSize] at hlow ⊢
    omega
  next =>
    rw [List.mem_filter, List.mem_range'_1, decide_eq_true_eq]
    simp only [alignDown, pageSize]
    omega

theorem covers_inWindow (hb : Booted hhdm image memmap) {e : MemmapEntry} (he : e ∈ memmap)
    {page : Nat} (h : e.Covers page) : InWindow hhdm image page := by
  have hregion := hb.regions e he
  obtain ⟨base, hbase⟩ := hb.imageAligned
  obtain ⟨offset, hoffset⟩ := hb.aligned
  obtain ⟨-, hlt⟩ := h
  simp only [InWindow, pageSize] at hbase hoffset hregion hlt ⊢
  omega

theorem mem_directPages (hb : Booted hhdm image memmap) (page : Nat) :
    page ∈ directPages memmap ↔ 0 < page ∧ page * pageSize < fourGiB ∨
      fourGiB ≤ page * pageSize ∧ ∃ e ∈ memmap, e.Covers page := by
  rw [directPages, List.mem_append, List.mem_range'_1, List.mem_flatMap]
  have hlow : (1 ≤ page ∧ page < 1 + (fourGiB / pageSize - 1)) ↔
      0 < page ∧ page * pageSize < fourGiB := by
    simp only [fourGiB, pageSize]
    omega
  rw [hlow]
  refine or_congr Iff.rfl ⟨fun h => ?_, fun h => ?_⟩
  · obtain ⟨e, he, hpage⟩ := h
    obtain ⟨hcovers, hhigh⟩ := (entryPages_iff hb he page).mp hpage
    exact ⟨hhigh, e, he, hcovers⟩
  · obtain ⟨hhigh, e, he, hcovers⟩ := h
    exact ⟨e, he, (entryPages_iff hb he page).mpr ⟨hcovers, hhigh⟩⟩

theorem directPages_inWindow (hb : Booted hhdm image memmap) {page : Nat}
    (h : page ∈ directPages memmap) : InWindow hhdm image page := by
  rcases (mem_directPages hb page).mp h with ⟨-, hlt⟩ | ⟨-, e, he, hcovers⟩
  · have hdev := hb.devices
    simp only [InWindow, fourGiB, pageSize] at hlt hdev ⊢
    omega
  · exact covers_inWindow hb he hcovers

/-- Within the window only the mapping of a page itself is for the page. -/
theorem samePage_direct (hb : Booted hhdm image memmap) {page : Nat}
    (hw : InWindow hhdm image page) {x : Mapping} (hx : x ∈ initMappings image hhdm memmap)
    (hs : SamePage x.virt (u64 (page * pageSize + hhdm))) :
    x = directMapping hhdm page ∧ page ∈ directPages memmap := by
  have hhigh := hb.higher
  have htop := hb.top
  obtain ⟨offset, hoffset⟩ := hb.aligned
  have haddr : u64 (page * pageSize + hhdm) = page * pageSize + hhdm := by
    simp only [InWindow, pageSize] at hw ⊢
    exact u64_of_lt (by omega)
  rw [haddr] at hs
  rcases List.mem_append.mp hx with hx | hx
  · obtain ⟨habove, hlt⟩ := imageMappings_above hb hx
    simp only [InWindow, SamePage, pageSize] at hw hs hoffset
    omega
  · obtain ⟨j, hj, rfl⟩ := List.mem_map.mp hx
    have hwj := directPages_inWindow hb hj
    have hj' : u64 (j * pageSize + hhdm) = j * pageSize + hhdm := by
      simp only [InWindow, pageSize] at hwj ⊢
      exact u64_of_lt (by omega)
    have he : j = page := by
      have hs' : SamePage (u64 (j * pageSize + hhdm)) (page * pageSize + hhdm) := hs
      rw [hj'] at hs'
      simp only [InWindow, SamePage, pageSize] at hw hwj hs' hoffset
      omega
    rw [he] at hj ⊢
    exact ⟨rfl, hj⟩

theorem initMappings_present (x : Mapping) (hx : x ∈ initMappings image hhdm memmap) :
    x.flags &&& ptePresent ≠ 0#64 := by
  rcases List.mem_append.mp hx with hx | hx
  · obtain ⟨s, hs, hx⟩ := List.mem_flatMap.mp hx
    obtain ⟨i, -, rfl⟩ := List.mem_map.mp hx
    simp only [sections, List.mem_cons, List.not_mem_nil, or_false] at hs
    have hflags : s.2.2 &&& ptePresent ≠ 0#64 := by
      rcases hs with rfl | rfl | rfl
      · exact show ptePresent &&& ptePresent ≠ 0#64 by decide
      · exact show (ptePresent ||| pteNx) &&& ptePresent ≠ 0#64 by decide
      · exact show (ptePresent ||| pteWritable ||| pteNx) &&& ptePresent ≠ 0#64 by decide
    exact hflags
  · obtain ⟨j, -, rfl⟩ := List.mem_map.mp hx
    exact show directFlags &&& ptePresent ≠ 0#64 by decide

theorem loop_grows {m : Machine P} {root : Nat} (hm : m.Ok) (ht : Tables m root) {is : List Nat}
    (hi : ∀ i ∈ is, i < 512) :
    Grows root m (is.foldl (fun m i => (getNextLevel m root i true).2) m) := by
  induction is generalizing m with
  | nil => exact Grows.refl hm ht
  | cons i is ih =>
    have hreach := getNextLevel_reaches hm ht (show [].length ≤ 2 by simp) rfl
      ⟨i, hi i List.mem_cons_self⟩
    have hg := hreach.grows
    rw [List.foldl_cons]
    exact hg.trans (ih hg.ok hg.tables fun j hj => hi j (List.mem_cons_of_mem i hj))

end Vmm

end UmbraOS
