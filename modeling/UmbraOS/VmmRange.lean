import UmbraOS.VmmMap

namespace UmbraOS

/-- A call of `map`. -/
structure Mapping where
  virt : Nat
  phys : Nat
  flags : BitVec 64

/-- The last-level entry of a mapping. -/
def Mapping.entry (x : Mapping) : BitVec 64 := BitVec.ofNat 64 x.phys ||| x.flags

namespace AddressSpace

variable {P : PageSource pageSize}

/-- Calls of `map`, one after another. -/
def mapAll (space : AddressSpace) (m : Machine P) (maps : List Mapping) : Machine P :=
  maps.foldl (fun m x => space.map m x.virt x.phys x.flags) m

theorem mapAll_cons (space : AddressSpace) (m : Machine P) (x : Mapping) (maps : List Mapping) :
    space.mapAll m (x :: maps) = space.mapAll (space.map m x.virt x.phys x.flags) maps := rfl

/-- The calls of `map` that `map_range` makes. -/
def rangeMappings (virtAddr physAddr turns : Nat) (flags : BitVec 64) : List Mapping :=
  (List.range turns).map fun i =>
    ⟨u64 (virtAddr + i * pageSize), u64 (physAddr + i * pageSize), flags⟩

/-- One turn of the loop. -/
theorem mapRangeLoop_succ (space : AddressSpace) (virtAddr physAddr : Nat) (flags : BitVec 64)
    (turns i : Nat) (m : Machine P) :
    space.mapRangeLoop virtAddr physAddr flags (turns + 1) i m =
      space.mapRangeLoop virtAddr physAddr flags turns (i + pageSize)
        (space.map m (u64 (virtAddr + i)) (u64 (physAddr + i)) flags) := by
  delta mapRangeLoop
  rfl

theorem mapRangeLoop_eq (space : AddressSpace) (virtAddr physAddr : Nat) (flags : BitVec 64)
    (turns k : Nat) (m : Machine P) :
    space.mapRangeLoop virtAddr physAddr flags turns (k * pageSize) m =
      space.mapAll m ((List.range' k turns).map fun i =>
        ⟨u64 (virtAddr + i * pageSize), u64 (physAddr + i * pageSize), flags⟩) := by
  induction turns generalizing k m with
  | zero => rfl
  | succ turns ih =>
    have hnext : k * pageSize + pageSize = (k + 1) * pageSize := (Nat.succ_mul k pageSize).symm
    rw [mapRangeLoop_succ, hnext, ih, List.range'_succ, List.map_cons, mapAll_cons]

theorem mapRange_eq (space : AddressSpace) (m : Machine P) (virtAddr physAddr pages : Nat)
    (flags : BitVec 64) (h : pages * pageSize < 2 ^ 64) :
    space.mapRange m virtAddr physAddr pages flags =
      space.mapAll m (rangeMappings virtAddr physAddr pages flags) := by
  have hturns : u64 (pages * pageSize) / pageSize = pages := by
    rw [u64_of_lt h]
    exact Nat.mul_div_cancel pages (by decide)
  have hloop := space.mapRangeLoop_eq virtAddr physAddr flags pages 0 m
  rw [Nat.zero_mul] at hloop
  rw [mapRange, hturns, hloop, rangeMappings, List.range_eq_range']

theorem mem_rangeMappings {virtAddr physAddr turns : Nat} {flags : BitVec 64} {x : Mapping} :
    x ∈ rangeMappings virtAddr physAddr turns flags ↔ ∃ i, i < turns ∧
      x = ⟨u64 (virtAddr + i * pageSize), u64 (physAddr + i * pageSize), flags⟩ := by
  rw [rangeMappings, List.mem_map]
  constructor
  · intro h
    obtain ⟨i, hi, rfl⟩ := h
    exact ⟨i, List.mem_range.mp hi, rfl⟩
  · intro h
    obtain ⟨i, hi, rfl⟩ := h
    exact ⟨i, List.mem_range.mpr hi, rfl⟩

end AddressSpace

namespace Vmm

variable {P : PageSource pageSize}

theorem SamePage.symm {v w : Nat} (h : SamePage v w) : SamePage w v := Eq.symm h

theorem SamePage.trans {u v w : Nat} (h : SamePage u v) (h' : SamePage v w) : SamePage u w :=
  Eq.trans h h'

theorem SamePage.pte {v w : Nat} (h : SamePage v w) (m : Machine P) (root : Nat) :
    pte m root v = pte m root w := by
  obtain ⟨hpath, hoffset⟩ := (samePage_iff v w).mp h
  rw [Vmm.pte, Vmm.pte, hpath, hoffset]

/-- What was refused before a mapping is refused after it. -/
theorem not_refused {root : Nat} {m m' : Machine P} (h : Keeps root m m')
    (hr : m'.refused = false) : m.refused = false := by
  cases hm : m.refused with
  | false => rfl
  | true =>
    rw [h.refused hm] at hr
    cases hr

variable {space : AddressSpace}

theorem mapAll_keeps {m : Machine P} (hm : m.Ok) (ht : Tables m space.pml4)
    (maps : List Mapping) : Keeps space.pml4 m (space.mapAll m maps) := by
  induction maps generalizing m with
  | nil => exact (Grows.refl hm ht).keeps_others
  | cons x maps ih =>
    obtain ⟨hk, -, -⟩ := map_keeps_pte hm ht x.virt x.phys x.flags
    rw [AddressSpace.mapAll_cons]
    exact hk.trans (ih hk.ok hk.tables)

/-- An entry that is present stays as it is. -/
theorem map_present {m : Machine P} (hm : m.Ok) (ht : Tables m space.pml4) {v p w : Nat}
    {flags : BitVec 64} (hw : pte m space.pml4 w &&& ptePresent ≠ 0#64) :
    pte (space.map m v p flags) space.pml4 w = pte m space.pml4 w := by
  obtain ⟨-, henter, hskip⟩ := map_keeps_pte hm ht v p flags
  by_cases he : Enters m space.pml4 v
  · rw [henter he w]
    split
    next hsame =>
      rw [← hsame.pte] at hw
      exact absurd he.2 hw
    next => rfl
  · exact hskip he w

theorem mapAll_present {m : Machine P} (hm : m.Ok) (ht : Tables m space.pml4) {w : Nat}
    (hw : pte m space.pml4 w &&& ptePresent ≠ 0#64) (maps : List Mapping) :
    pte (space.mapAll m maps) space.pml4 w = pte m space.pml4 w := by
  induction maps generalizing m with
  | nil => rfl
  | cons x maps ih =>
    obtain ⟨hk, -, -⟩ := map_keeps_pte hm ht x.virt x.phys x.flags
    have hstep : pte (space.map m x.virt x.phys x.flags) space.pml4 w = pte m space.pml4 w :=
      map_present hm ht hw
    rw [AddressSpace.mapAll_cons, ih hk.ok hk.tables (hstep ▸ hw), hstep]

/-- A mapping that finds its tables enters the page if it was not mapped. -/
theorem map_absent {m : Machine P} (hm : m.Ok) (ht : Tables m space.pml4) {v p w : Nat}
    {flags : BitVec 64} (hr : (space.map m v p flags).refused = false)
    (hw : pte m space.pml4 w &&& ptePresent = 0#64) :
    pte (space.map m v p flags) space.pml4 w =
      if SamePage v w then BitVec.ofNat 64 p ||| flags else pte m space.pml4 w := by
  obtain ⟨-, henter, hskip⟩ := map_keeps_pte hm ht v p flags
  have hwalk : (virtToPte m space.pml4 v).1 ≠ none := by
    intro hnone
    rw [map_refused hm ht hnone] at hr
    cases hr
  by_cases hsame : SamePage v w
  · have hv : pte m space.pml4 v &&& ptePresent = 0#64 := by
      rw [hsame.pte]
      exact hw
    exact henter ⟨hwalk, hv⟩ w
  · rw [if_neg hsame]
    by_cases he : Enters m space.pml4 v
    · rw [henter he w, if_neg hsame]
    · exact hskip he w

/-- The entries after a list of mappings, if no table page was refused: a page that was not
mapped is mapped by the first mapping for it. -/
theorem mapAll_pte {m : Machine P} (hm : m.Ok) (ht : Tables m space.pml4) {maps : List Mapping}
    (hpresent : ∀ x ∈ maps, x.flags &&& ptePresent ≠ 0#64)
    (hr : (space.mapAll m maps).refused = false) (w : Nat) :
    pte (space.mapAll m maps) space.pml4 w =
      if pte m space.pml4 w &&& ptePresent ≠ 0#64 then pte m space.pml4 w
      else match maps.find? fun x => SamePage x.virt w with
        | none => pte m space.pml4 w
        | some x => x.entry := by
  induction maps generalizing m with
  | nil =>
    rw [List.find?_nil]
    split <;> rfl
  | cons x maps ih =>
    obtain ⟨hk, -, -⟩ := map_keeps_pte hm ht x.virt x.phys x.flags
    have htail := fun y hy => hpresent y (List.mem_cons_of_mem x hy)
    rw [AddressSpace.mapAll_cons] at hr ⊢
    have hr' := not_refused (mapAll_keeps hk.ok hk.tables maps) hr
    rw [ih hk.ok hk.tables htail hr]
    by_cases hw : pte m space.pml4 w &&& ptePresent ≠ 0#64
    · rw [map_present hm ht hw, if_pos hw, if_pos hw]
    · rw [map_absent hm ht hr' (not_not.mp hw), if_neg hw]
      by_cases hsame : SamePage x.virt w
      · have hentry : (BitVec.ofNat 64 x.phys ||| x.flags) &&& ptePresent ≠ 0#64 :=
          present_or (hpresent x List.mem_cons_self)
        have hfirst : (x :: maps).find? (fun x => SamePage x.virt w) = some x :=
          List.find?_cons_of_pos (decide_eq_true hsame)
        rw [if_pos hsame, if_pos hentry, hfirst]
        rfl
      · rw [if_neg hsame, if_neg hw, List.find?_cons_of_neg (by simpa using hsame)]

end Vmm

end UmbraOS
