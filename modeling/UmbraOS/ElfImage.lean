import UmbraOS.ElfSafety
import UmbraOS.HeapSpace

namespace UmbraOS

/-- The byte that a program sees at an address; none where no page is mapped. -/
def AddressSpace.byteAt {P : PageSource pageSize} (space : AddressSpace) (m : Machine P)
    (addr : Nat) : Option Byte :=
  let e := Vmm.pte m space.pml4 addr
  if e &&& ptePresent = 0#64 then none
  else some (m.mem (m.physToVirt (pteGetAddr e).toNat + addr % pageSize))

namespace Vmm

/-- The entry of an address after a list of mappings, if no table page was refused. -/
def entryAfter (old : BitVec 64) (maps : List Mapping) (w : Nat) : BitVec 64 :=
  if old &&& ptePresent ≠ 0#64 then old
  else match maps.find? fun x => SamePage x.virt w with
    | none => old
    | some x => x.entry

theorem entryAfter_nil (old : BitVec 64) (w : Nat) : entryAfter old [] w = old := ite_self old

theorem entryAfter_append {old : BitVec 64} {xs : List Mapping}
    (hpresent : ∀ x ∈ xs, x.flags &&& ptePresent ≠ 0#64) (ys : List Mapping) (w : Nat) :
    entryAfter (entryAfter old xs w) ys w = entryAfter old (xs ++ ys) w := by
  by_cases hold : old &&& ptePresent ≠ 0#64
  · have hset : ∀ maps, entryAfter old maps w = old := fun maps => if_pos hold
    rw [hset, hset, hset]
  · have hclear : ∀ maps, entryAfter old maps w =
        match maps.find? fun x => SamePage x.virt w with
        | none => old
        | some x => x.entry := fun maps => if_neg hold
    rw [hclear xs, hclear (xs ++ ys), List.find?_append]
    cases hfind : xs.find? fun x => SamePage x.virt w with
    | none => exact hclear ys
    | some x =>
      have hx : x.entry &&& ptePresent ≠ 0#64 :=
        present_or (hpresent x (List.mem_of_find?_eq_some hfind))
      exact if_pos hx

end Vmm

namespace Elf

open Vmm

variable {P : PageSource pageSize} {call : ElfCall} {node : Node} {phdr : Phdr}

theorem segmentFlags_present (flags : BitVec 32) : segmentFlags flags &&& ptePresent ≠ 0#64 := by
  unfold segmentFlags
  simp only
  split <;> split <;> decide

theorem segmentFlags_addr (flags : BitVec 32) : pteGetAddr (segmentFlags flags) = 0#64 := by
  unfold segmentFlags
  simp only
  split <;> split <;> decide

theorem misalign_eq (phdr : Phdr) : misalign phdr = phdr.vaddr % 4096 :=
  Nat.and_two_pow_sub_one_eq_mod phdr.vaddr 12

/-- The `PT_LOAD` headers among the first `n`. -/
def segmentsBefore (node : Node) (n : Nat) : List Phdr :=
  ((List.range n).map (filePhdr node)).filter fun phdr => phdr.type = ptLoad

def segments (node : Node) : List Phdr := segmentsBefore node (fileHeader node).phnum

theorem segmentsBefore_succ (node : Node) (n : Nat) : segmentsBefore node (n + 1) =
    segmentsBefore node n ++ if (filePhdr node n).type = ptLoad then [filePhdr node n] else [] := by
  unfold segmentsBefore
  rw [List.range_succ, List.map_append, List.filter_append, List.map_singleton,
    List.filter_singleton, Bool.cond_decide]

theorem mem_segments : phdr ∈ segments node ↔
    ∃ i < (fileHeader node).phnum, (filePhdr node i).type = ptLoad ∧ filePhdr node i = phdr := by
  unfold segments segmentsBefore
  rw [List.mem_filter, List.mem_map, decide_eq_true_iff]
  constructor
  · intro h
    obtain ⟨⟨i, hi, rfl⟩, htype⟩ := h
    exact ⟨i, List.mem_range.mp hi, htype, rfl⟩
  · intro h
    obtain ⟨i, hi, htype, rfl⟩ := h
    exact ⟨⟨i, List.mem_range.mpr hi, rfl⟩, htype⟩

/-- The address of a byte of a segment. -/
def address (call : ElfCall) (phdr : Phdr) (k : Nat) : Nat := u64 (call.loadBase + phdr.vaddr + k)

/-- What a byte of a segment should be: a byte of the file, or 0 behind them. -/
def content (node : Node) (phdr : Phdr) (k : Nat) : Byte :=
  if k < phdr.filesz then node.fileData.bytesFrom phdr.offset k else 0#8

/-- What a segment puts into its pages, from the start of the first one. -/
def image (node : Node) (phdr : Phdr) (x : Nat) : Byte :=
  if x < misalign phdr then 0#8 else content node phdr (x - misalign phdr)

/-- The address at which a page of a segment is mapped. -/
def pageAddress (call : ElfCall) (phdr : Phdr) (i : Nat) : Nat :=
  u64 (u64 (phdr.vaddr + call.loadBase) + i * pageSize)

def pagesOf (phdr : Phdr) : List (Phdr × Nat) := (List.range (pageCount phdr)).map fun i => (phdr, i)

/-- The first page in the order of the headers that holds an address. -/
def firstPage (call : ElfCall) (phdrs : List Phdr) (w : Nat) : Option (Phdr × Nat) :=
  (phdrs.flatMap pagesOf).find? fun x => SamePage (pageAddress call x.1 x.2) w

theorem firstPage_holds {phdrs : List Phdr} {w : Nat} {x : Phdr × Nat}
    (h : firstPage call phdrs w = some x) :
    x ∈ phdrs.flatMap pagesOf ∧ SamePage (pageAddress call x.1 x.2) w := by
  unfold firstPage at h
  have hfound := List.find?_some h
  exact ⟨List.mem_of_find?_eq_some h, of_decide_eq_true hfound⟩

/-- The calls of `map` for segments, each with the first page of its frames. -/
def mappingsOf (call : ElfCall) (placed : List (Phdr × Nat)) : List Mapping :=
  placed.flatMap fun d => segmentMappings call d.1 (d.2 * pageSize)

theorem mappingsOf_append (call : ElfCall) (placed placed' : List (Phdr × Nat)) :
    mappingsOf call (placed ++ placed') = mappingsOf call placed ++ mappingsOf call placed' :=
  List.flatMap_append

theorem mappingsOf_singleton (call : ElfCall) (phdr : Phdr) (page : Nat) :
    mappingsOf call [(phdr, page)] = segmentMappings call phdr (page * pageSize) :=
  List.flatMap_singleton _ _

theorem segmentMappings_present {phys : Nat} (x : Mapping) (hx : x ∈ segmentMappings call phdr phys) :
    x.flags &&& ptePresent ≠ 0#64 := by
  obtain ⟨i, -, rfl⟩ := AddressSpace.mem_rangeMappings.mp hx
  exact segmentFlags_present phdr.flags

theorem mappingsOf_present {placed : List (Phdr × Nat)} (x : Mapping)
    (hx : x ∈ mappingsOf call placed) : x.flags &&& ptePresent ≠ 0#64 := by
  obtain ⟨d, -, hd⟩ := List.mem_flatMap.mp hx
  exact segmentMappings_present x hd

/-- The mapping for a page of a segment that was placed. -/
def pageMapping (call : ElfCall) (d : Phdr × Nat) (i : Nat) : Mapping :=
  ⟨pageAddress call d.1 i, u64 (d.2 * pageSize + i * pageSize), segmentFlags d.1.flags⟩

/-- The first mapping for an address is the one of the first page that holds it. -/
theorem find_mappingsOf (call : ElfCall) (placed : List (Phdr × Nat)) (w : Nat) :
    ((mappingsOf call placed).find? (fun x => SamePage x.virt w) = none ∧
      firstPage call (placed.map Prod.fst) w = none) ∨
    ∃ d ∈ placed, ∃ i < pageCount d.1,
      (mappingsOf call placed).find? (fun x => SamePage x.virt w) = some (pageMapping call d i) ∧
      firstPage call (placed.map Prod.fst) w = some (d.1, i) := by
  induction placed with
  | nil => exact Or.inl ⟨rfl, rfl⟩
  | cons d placed ih =>
    have hmaps : (mappingsOf call (d :: placed)).find? (fun x => SamePage x.virt w) =
        (((List.range (pageCount d.1)).find? fun i => SamePage (pageAddress call d.1 i) w).map
          (pageMapping call d)).or
          ((mappingsOf call placed).find? fun x => SamePage x.virt w) := by
      unfold mappingsOf segmentMappings AddressSpace.rangeMappings
      rw [List.flatMap_cons, List.find?_append, List.find?_map]
      rfl
    have hpages : firstPage call ((d :: placed).map Prod.fst) w =
        (((List.range (pageCount d.1)).find? fun i => SamePage (pageAddress call d.1 i) w).map
          (Prod.mk d.1)).or (firstPage call (placed.map Prod.fst) w) := by
      unfold firstPage pagesOf
      rw [List.map_cons, List.flatMap_cons, List.find?_append, List.find?_map]
      rfl
    rw [hmaps, hpages]
    cases hfind : (List.range (pageCount d.1)).find? fun i => SamePage (pageAddress call d.1 i) w with
    | some i =>
      have hi := List.mem_range.mp (List.mem_of_find?_eq_some hfind)
      exact Or.inr ⟨d, List.mem_cons_self, i, hi, rfl, rfl⟩
    | none =>
      rcases ih with hnone | ⟨e, he, hrest⟩
      · exact Or.inl hnone
      · exact Or.inr ⟨e, List.mem_cons_of_mem d he, hrest⟩

theorem pageCount_eq (h : phdr.memsz + misalign phdr + 4095 < 2 ^ 64) :
    pageCount phdr = (phdr.memsz + misalign phdr + 4095) / 4096 := by
  rw [pageCount, alignUp_page h]
  exact Nat.mul_div_cancel _ (by decide)

/-- A byte of a segment lies in one of its pages. -/
theorem samePage_address (halign : pageSize ∣ call.loadBase) (phdr : Phdr) (k : Nat) :
    SamePage (pageAddress call phdr ((misalign phdr + k) / pageSize)) (address call phdr k) := by
  have hmis := misalign_eq phdr
  obtain ⟨q, hq⟩ := halign
  unfold SamePage pageAddress address u64 pageSize at *
  omega

theorem address_mod (halign : pageSize ∣ call.loadBase) (phdr : Phdr) (k : Nat) :
    address call phdr k % pageSize = (misalign phdr + k) % pageSize := by
  have hmis := misalign_eq phdr
  obtain ⟨q, hq⟩ := halign
  unfold address u64 pageSize at *
  omega

/-- The page of a segment that holds a byte of it. -/
theorem mem_pagesOf {phdrs : List Phdr} (hphdr : phdr ∈ phdrs)
    (hfits : phdr.memsz + misalign phdr + 4095 < 2 ^ 64) {k : Nat} (hk : k < phdr.memsz) :
    (phdr, (misalign phdr + k) / pageSize) ∈ phdrs.flatMap pagesOf := by
  have hi : (misalign phdr + k) / pageSize < pageCount phdr := by
    rw [pageCount_eq hfits]
    unfold pageSize
    omega
  exact List.mem_flatMap.mpr ⟨phdr, hphdr, List.mem_map.mpr ⟨_, List.mem_range.mpr hi, rfl⟩⟩

theorem firstPage_some {phdrs : List Phdr} (halign : pageSize ∣ call.loadBase)
    (hphdr : phdr ∈ phdrs) (hfits : phdr.memsz + misalign phdr + 4095 < 2 ^ 64) {k : Nat}
    (hk : k < phdr.memsz) : firstPage call phdrs (address call phdr k) ≠ none := by
  intro hnone
  have hno := List.find?_eq_none.mp hnone _ (mem_pagesOf hphdr hfits hk)
  exact hno (decide_eq_true (samePage_address halign phdr k))

end Elf

end UmbraOS
