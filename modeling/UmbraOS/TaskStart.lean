import UmbraOS.TaskCreate

namespace UmbraOS

namespace Elf

open Vmm
open Heap (Allocation Layout)

variable {P : PageSource pageSize} {call : ElfCall} {node : Node} {phdr : Phdr} {header : Ehdr}
  {s s' t u : Loader P} {a n : Nat} {placed : List (Phdr × Nat)} {L L' : Layout}
  {live : List Allocation} {ret : BitVec 64} {bytes : Option Memory} {m m' : Machine P}

theorem readInto_auxv {fd : Option Nat} {offset length size : Nat}
    (h : readInto s fd offset length size = .ok (ret, bytes, t)) : t.auxv = s.auxv := by
  obtain ⟨⟨ret', bytes', vfs⟩, -, h⟩ := Except.bind_eq_ok.mp h
  cases bytes' <;> cases h <;> rfl

theorem readAt_auxv {fd : Option Nat} {position offset length size : Nat}
    (h : readAt s fd position offset length size = .ok (ret, bytes, t)) : t.auxv = s.auxv := by
  obtain ⟨vfs, -, h⟩ := Except.bind_eq_ok.mp h
  have hauxv : t.auxv = ({ s with vfs } : Loader P).auxv := readInto_auxv h
  exact hauxv

theorem fetchPhdr_auxv {i : Nat} (h : fetchPhdr call header i s = .ok (ret, phdr, t)) :
    t.auxv = s.auxv := by
  obtain ⟨⟨ret', bytes, u⟩, hu, h⟩ := Except.bind_eq_ok.mp h
  cases h
  exact readAt_auxv hu

theorem fetchHeader_auxv (h : fetchHeader call s = .ok (ret, header, t)) : t.auxv = s.auxv := by
  obtain ⟨⟨ret', bytes, u⟩, hu, h⟩ := Except.bind_eq_ok.mp h
  cases h
  exact readInto_auxv hu

/-- What a program header changes in the auxiliary vector. -/
def noted (call : ElfCall) (auxv : Auxval) (phdr : Phdr) : Auxval :=
  if phdr.type = ptPhdr then { auxv with atPhdr := u64 (phdr.vaddr + call.loadBase) } else auxv

theorem loadSegment_auxv {go : Bool} (h : loadSegment call phdr s = .ok (go, t)) :
    t.auxv = s.auxv := by
  simp only [loadSegment] at h
  split at h
  next =>
    cases h
    rfl
  next =>
    obtain ⟨⟨ret, bytes, u⟩, hu, h⟩ := Except.bind_eq_ok.mp h
    have hsame := readAt_auxv hu
    cases bytes with
    | none =>
      cases h
      exact hsame
    | some bytes =>
      cases h
      exact hsame

theorem loadInterp_auxv (h : loadInterp call phdr s = .ok (true, t)) : t.auxv = s.auxv := by
  simp only [loadInterp] at h
  split at h
  next => cases h
  next path heap hk =>
    split at h
    next => cases h
    next =>
      obtain ⟨⟨ret, bytes, u⟩, hu, h⟩ := Except.bind_eq_ok.mp h
      have hsame := readAt_auxv hu
      simp only at h
      split at h
      next => cases h
      next =>
        cases bytes with
        | none => split at h <;> cases h <;> exact hsame
        | some bytes => split at h <;> cases h <;> exact hsame

theorem loadPhdr_auxv (h : loadPhdr call phdr s = .ok (true, t)) :
    t.auxv = noted call s.auxv phdr := by
  rw [loadPhdr] at h
  split at h
  next htype =>
    have hne : phdr.type ≠ ptPhdr := by
      rw [htype]
      decide
    rw [noted, if_neg hne]
    exact loadSegment_auxv h
  next =>
    split at h
    next htype =>
      cases h
      rw [noted, if_pos htype]
    next hne =>
      rw [noted, if_neg hne]
      split at h
      next => exact loadInterp_auxv h
      next =>
        cases h
        rfl

/-- The auxiliary vector after the first program headers. -/
def auxvAfter (call : ElfCall) (node : Node) (auxv : Auxval) (n : Nat) : Auxval :=
  ((List.range n).map (filePhdr node)).foldl (noted call) auxv

theorem auxv_before (ho : Opened call s a node) (hf : Loadable node)
    (hheader : fetchHeader call s = .ok (ret, fileHeader node, s')) (hret : ret ≠ 0#64)
    (h : Before (Elf.turn call (fileHeader node)) 0 s' n u) (hn : n ≤ (fileHeader node).phnum) :
    u.auxv = auxvAfter call node s.auxv n := by
  induction h with
  | start => exact fetchHeader_auxv hheader
  | @next k u t earlier goes ih =>
    have hc : Comes call s (fileHeader node) k u :=
      ⟨⟨ret, s', hheader, hret, earlier⟩, hf.magic, hf.valid, hn⟩
    have hb := (ho.comes_behind hc).2
    obtain ⟨ret', v, hfetch, hret', -⟩ := fetchPhdr_spec ho.fd hb (fileHeader node) k
    rw [phdrSeen_file call ho.size (hf.starts.phdrs k hn)] at hfetch
    rw [turn_eq hfetch hret'] at goes
    rw [loadPhdr_auxv goes, fetchPhdr_auxv hfetch, ih (by omega), auxvAfter, auxvAfter,
      List.range_succ, List.map_append, List.foldl_append]
    rfl

/-- The auxiliary vector of a file that is loaded: what its headers say. -/
def loadedAuxv (call : ElfCall) (node : Node) (auxv : Auxval) : Auxval :=
  { auxvAfter call node auxv (fileHeader node).phnum with
    atEntry := u64 ((fileHeader node).entry + call.loadBase)
    atPhent := (fileHeader node).phentsize
    atPhnum := (fileHeader node).phnum }

/-- What the loader has done once it accepts a file. -/
theorem Opened.progress (ho : Opened call s a node)
    (hs : Sound Slab.sizes s.heap call.space.pml4 live L) (hf : Loadable node)
    (he : Enough call s node) (h : load call s = .ok (true, t)) :
    (∃ placed, Progress call node s (fileHeader node).phnum t placed) ∧
      t.auxv = loadedAuxv call node s.auxv := by
  obtain ⟨ret, s', hheader, hret, -⟩ := fetchHeader_spec ho.fd ho.behind
  rw [headerSeen_file call hf.starts.header] at hheader
  obtain ⟨-, -, v, hbefore, rfl⟩ := (load_true hheader hret).mp h
  obtain ⟨⟨placed, hp⟩, -⟩ := Progress.run ho hs hf he hheader hret hbefore (le_refl _)
  refine ⟨⟨placed, hp.sound, hp.headers, hp.entries, hp.granted⟩, ?_⟩
  rw [loadedAuxv, ← auxv_before ho hf hheader hret hbefore (le_refl _)]

/-- The entry for an address of a segment. -/
theorem Progress.entry (hp : Progress call node s (fileHeader node).phnum t placed) {w : Nat}
    (hold : pte s.heap.machine call.space.pml4 w &&& ptePresent = 0#64) (hb : P.bound ≤ 2 ^ 40)
    (hin : ∀ d ∈ placed, d.2 + pageCount d.1 ≤ P.bound)
    (hfirst : firstPage call (segments node) w ≠ none) :
    ∃ d ∈ placed, ∃ i < pageCount d.1, pte t.heap.machine call.space.pml4 w =
      BitVec.ofNat 64 ((d.2 + i) * pageSize) ||| segmentFlags d.1.flags := by
  have hfind := find_mappingsOf call placed w
  have hheaders : placed.map Prod.fst = segments node := hp.headers
  rw [hheaders] at hfind
  rcases hfind with ⟨-, hnone⟩ | ⟨d, hd, i, hi, hmap, -⟩
  · exact absurd hnone hfirst
  · have hinside := hin d hd
    have hphys : u64 (d.2 * pageSize + i * pageSize) = (d.2 + i) * pageSize := by
      rw [← Nat.add_mul]
      exact u64_of_lt (by unfold pageSize; omega)
    refine ⟨d, hd, i, hi, ?_⟩
    rw [hp.entries w, entryAfter, if_neg (not_not.mpr hold), hmap, ← hphys]
    rfl

/-- Where no segment goes the space is as it was. -/
theorem Progress.elsewhere (hp : Progress call node s (fileHeader node).phnum t placed) {w : Nat}
    (hnone : firstPage call (segments node) w = none) :
    pte t.heap.machine call.space.pml4 w = pte s.heap.machine call.space.pml4 w := by
  have hfind := find_mappingsOf call placed w
  have hheaders : placed.map Prod.fst = segments node := hp.headers
  rw [hheaders] at hfind
  rcases hfind with ⟨hmap, -⟩ | ⟨d, -, i, -, -, hsome⟩
  · rw [hp.entries w, entryAfter, hmap]
    exact ite_self _
  · rw [hnone] at hsome
    cases hsome

/-- A byte in a frame that lies aside is seen as before. -/
theorem seen_of_spares {space : AddressSpace} {w page : Nat} {flags : BitVec 64}
    (hspares : Spares space.pml4 m L m' L') (ha : Aside m space.pml4 L page) (hpage : page < 2 ^ 40)
    (hf : pteGetAddr flags = 0#64)
    (he : pte m space.pml4 w = BitVec.ofNat 64 (page * pageSize) ||| flags)
    (hkept : pte m' space.pml4 w = pte m space.pml4 w) :
    space.byteAt m' w = space.byteAt m w := by
  have hframe : (pteGetAddr (pte m space.pml4 w)).toNat = page * pageSize := by
    rw [he, pteGetAddr_entry hpage hf, BitVec.toNat_ofNat]
    exact Nat.mod_eq_of_lt (by unfold pageSize; omega)
  have hplace : m'.physToVirt (page * pageSize) = m.physToVirt (page * pageSize) := by
    unfold Machine.physToVirt
    rw [hspares.hhdm]
  have hbyte := (hspares.aside page ha).2 (w % pageSize) (Nat.mod_lt _ (by decide))
  have hmem : m'.mem (m.physToVirt (page * pageSize) + w % pageSize) =
      m.mem (m.physToVirt (page * pageSize) + w % pageSize) := hbyte
  simp only [AddressSpace.byteAt, hkept, hframe, hplace, hmem]

/-- No segment goes where the stack goes. -/
def StackClear (call : ElfCall) (node : Node) : Prop :=
  ∀ x < stackSize, firstPage call (segments node) (Task.stackByte x) = none

/-- A task with a program: the CPU starts it at its entry point in ring 3, it finds its segments and
its arguments, and its stack has frames of its own. -/
structure Launched (call : ElfCall) (node : Node) (m : Machine P) (entry : BitVec 64) (auxv : Auxval)
    (r : AddressSpace × Registers × Machine P) : Prop where
  addressSpace : r.1 = call.space
  context : r.2.1 = Task.userContext entry (BitVec.ofNat 64 Task.argumentsAt)
  places : Places call node r.2.2
  stack : Task.Stacked call.space m auxv r.2.2

/-- A file that is loaded into a space, and for which a task is created, is started with what its
headers say in its auxiliary vector. -/
theorem program_starts (ho : Opened call s a node)
    (hs : Sound Slab.sizes s.heap call.space.pml4 live L) (hf : Loadable node)
    (halign : pageSize ∣ call.loadBase) (hv : Vacant call s.heap.machine node)
    (he : Enough call s node) (hi : Intact call node)
    (hstack : Task.StackVacant call.space s.heap.machine) (hclear : StackClear call node)
    (hload : load call s = .ok (true, t)) (kernelSpace : AddressSpace) (entry : BitVec 64)
    (hr : (Task.create t.heap.machine kernelSpace entry (some t.auxv) (some call.space)).2.2.refused =
      false) :
    Launched call node t.heap.machine entry (loadedAuxv call node s.auxv)
      (Task.create t.heap.machine kernelSpace entry (some t.auxv) (some call.space)) := by
  obtain ⟨⟨placed, hp⟩, hauxv⟩ := ho.progress hs hf he hload
  rw [hauxv] at hr ⊢
  have hplaces := (hp.places_iff he halign hv).mpr hi.bytes
  obtain ⟨live', L', hsound, hplaced⟩ := hp.sound
  have hvacant : Task.StackVacant call.space t.heap.machine := by
    intro x hx
    rw [hp.elsewhere (hclear x hx)]
    exact hstack x hx
  have hcreated := Task.create_user hsound hvacant kernelSpace entry hr
  refine ⟨hcreated.addressSpace, hcreated.context, ?_, hcreated.stack⟩
  have hb := hsound.heap.ok.bound
  intro phdr hmem k hk
  have hfit := he.segments phdr hmem
  have hsome : firstPage call (segments node) (address call phdr k) ≠ none :=
    firstPage_some halign hmem (by unfold pageSize at hfit; omega) hk
  obtain ⟨d, hd, i, hlt, hentry⟩ := hp.entry (hv phdr hmem k hk) hb
    (fun d hd => (hplaced d hd).inside) hsome
  have hinside := (hplaced d hd).inside
  have hpresent : pte t.heap.machine call.space.pml4 (address call phdr k) &&& ptePresent ≠ 0#64 := by
    rw [hentry]
    exact present_or (segmentFlags_present _)
  rw [seen_of_spares hcreated.spares
    ((hplaced d hd).aside (d.2 + i) (Nat.le_add_right _ _) (by omega)) (by omega)
    (segmentFlags_addr _) hentry (hcreated.kept _ hpresent)]
  exact hplaces phdr hmem k hk

section Granted

/-- A table that is missing takes one free page. -/
theorem getNextLevel_takes (hP : P.Complete) (hm : m.Ok) (topLevel idx : Nat)
    (hf : freePages m ≠ 0) : (getNextLevel m topLevel idx true).1 ≠ none ∧
      (getNextLevel m topLevel idx true).2.refused = m.refused ∧
      freePages m ≤ freePages (getNextLevel m topLevel idx true).2 + 1 := by
  by_cases hp : entry m topLevel idx &&& ptePresent ≠ 0#64
  · rw [getNextLevel, if_pos hp]
    exact ⟨Option.some_ne_none _, rfl, Nat.le_succ _⟩
  · have hc := Machine.calloc_spec hm Nat.one_pos
    have hrefused := calloc_refuses hP hm
    rw [getNextLevel_absent hp]
    generalize m.calloc 1 = r at hc hrefused ⊢
    cases hc with
    | refused pmm ok used => exact absurd (hrefused rfl) hf
    | run page pmm ok positive inside fresh used =>
      have hne : page * pageSize ≠ 0 := Nat.mul_ne_zero (by omega) (by decide)
      rw [linkTable, if_neg hne]
      have hcount : freePages (⟨m.mem, pmm, m.hhdm, m.refused⟩ : Machine P) + 1 = freePages m :=
        freePages_run inside fresh used
      exact ⟨Option.some_ne_none _, rfl, Nat.le_of_eq hcount.symm⟩

/-- A walk takes at most three. -/
theorem virtToPte_takes (hP : P.Complete) (hm : m.Ok) (pml4 v : Nat) (hf : 3 ≤ freePages m) :
    (virtToPte m pml4 v).2.refused = m.refused ∧
      freePages m ≤ freePages (virtToPte m pml4 v).2 + 3 := by
  obtain ⟨h4, hr4, hf4⟩ := getNextLevel_takes hP hm pml4 (pml4Offset v) (by omega)
  have hok4 := getNextLevel_ok hm pml4 (pml4Offset v) true
  rw [virtToPte]
  generalize getNextLevel m pml4 (pml4Offset v) true = r4 at h4 hr4 hf4 hok4 ⊢
  rcases r4 with ⟨_ | pml3, m4⟩
  · exact absurd rfl h4
  simp only at hr4 hf4 hok4
  obtain ⟨h3, hr3, hf3⟩ := getNextLevel_takes hP hok4 pml3 (pml3Offset v) (by omega)
  have hok3 := getNextLevel_ok hok4 pml3 (pml3Offset v) true
  rw [ifNull_some]
  generalize getNextLevel m4 pml3 (pml3Offset v) true = r3 at h3 hr3 hf3 hok3 ⊢
  rcases r3 with ⟨_ | pml2, m3⟩
  · exact absurd rfl h3
  simp only at hr3 hf3 hok3
  obtain ⟨h2, hr2, hf2⟩ := getNextLevel_takes hP hok3 pml2 (pml2Offset v) (by omega)
  rw [ifNull_some]
  generalize getNextLevel m3 pml2 (pml2Offset v) true = r2 at h2 hr2 hf2 ⊢
  rcases r2 with ⟨_ | pml1, m2⟩
  · exact absurd rfl h2
  · rw [ifNull_some]
    simp only at hf2
    have hcount : freePages m ≤ freePages m2 + 3 := by omega
    exact ⟨hr2.trans (hr3.trans hr4), hcount⟩

theorem map_takes (hP : P.Complete) (hm : m.Ok) (space : AddressSpace) (v p : Nat)
    (flags : BitVec 64) (hf : 3 ≤ freePages m) : (space.map m v p flags).refused = m.refused ∧
      freePages m ≤ freePages (space.map m v p flags) + 3 := by
  have hwalk := virtToPte_takes hP hm space.pml4 v hf
  rw [AddressSpace.map]
  generalize virtToPte m space.pml4 v = r at hwalk ⊢
  rcases r with ⟨_ | pte, m'⟩
  · exact hwalk
  · rw [ifNull_some]
    split
    next => exact hwalk
    next => exact hwalk

theorem mapAll_enough (hP : P.Complete) (hm : m.Ok) (space : AddressSpace) (maps : List Mapping)
    (hf : 3 * maps.length ≤ freePages m) : (space.mapAll m maps).refused = m.refused := by
  induction maps generalizing m with
  | nil => rfl
  | cons x maps ih =>
    rw [List.length_cons] at hf
    obtain ⟨hr, hcount⟩ := map_takes hP hm space x.virt x.phys x.flags (by omega)
    rw [AddressSpace.mapAll_cons, ih (AddressSpace.map_ok hm x.virt x.phys x.flags) (by omega), hr]

/-- A task in user mode gets its memory if there is a run of frames for the stack, and pages for
the tables. -/
theorem create_granted (hP : P.Complete) (hm : m.Ok) (hr : m.refused = false)
    (hrun : Mmap.RunFree m Task.stackPages) (hf : 4 * Task.stackPages ≤ freePages m)
    (kernelSpace : AddressSpace) (entry : BitVec 64) (auxv : Auxval) (space : AddressSpace) :
    (Task.create m kernelSpace entry (some auxv) (some space)).2.2.refused = false := by
  have hpos : 0 < Task.stackPages := by decide
  have hne := (Mmap.alloc_run_iff hP hm hpos).mpr hrun
  have hok := Machine.alloc_ok hm Task.stackPages
  have ha := Machine.alloc_spec hm hpos
  rw [Task.create_user_eq]
  show (Task.pushStack _ _ _).2.refused = false
  rw [Task.pushStack_refused]
  generalize m.alloc Task.stackPages = r at hne hok ha ⊢
  cases ha with
  | refused pmm ok used => exact absurd rfl hne
  | run page pmm ok positive inside fresh used =>
    have hcount : freePages (⟨m.mem, pmm, m.hhdm, m.refused⟩ : Machine P) + Task.stackPages =
        freePages m := freePages_run inside fresh used
    have hlength : (Task.stackMappings (page * pageSize)).length = Task.stackPages := by
      unfold Task.stackMappings AddressSpace.rangeMappings
      rw [List.length_map, List.length_range]
    have hmapped := mapAll_enough hP hok space (Task.stackMappings (page * pageSize))
      (by rw [hlength]; simp only; omega)
    exact hmapped.trans hr

end Granted

section OneSegment

variable {b : Machine (Pmm.source 8 bootPmm_limit)}

theorem clear_unused (h : ∀ k < 128, b.pmm.bitmap.data (16 + k) = 0#8) {i : Nat} (hle : 128 ≤ i)
    (hlt : i < 1152) : ¬b.Used i := by
  have hbit : b.Used i ↔ (b.pmm.bitmap.data (i / 8)).getLsbD (i % 8) = true := by
    rw [← Bitmap.get_eq_getLsbD]
    exact Iff.rfl
  have hdata := h (i / 8 - 16) (by omega)
  rw [show 16 + (i / 8 - 16) = i / 8 by omega] at hdata
  rw [hbit, hdata, BitVec.getLsbD_zero]
  exact Bool.false_ne_true

theorem clear_free (h : ∀ k < 128, b.pmm.bitmap.data (16 + k) = 0#8) : 1024 ≤ freePages b := by
  classical
  have hsub : Finset.Ico 128 1152 ⊆
      (Finset.range (Pmm.source 8 bootPmm_limit).bound).filter fun i => ¬b.Used i := by
    intro i hi
    obtain ⟨hle, hlt⟩ := Finset.mem_Ico.mp hi
    have hbound : 1152 ≤ (Pmm.source 8 bootPmm_limit).bound := by decide
    exact Finset.mem_filter.mpr ⟨Finset.mem_range.mpr (by omega), clear_unused h hle hlt⟩
  have hcard := Finset.card_le_card hsub
  rw [Nat.card_Ico] at hcard
  exact hcard

/-- Whether 1024 pages are free once the file is loaded. -/
def loadedClear : Bool :=
  match load bootCall (heapLoader (segmentFile 1#8)) with
  | .ok (true, t) => (List.range 128).all fun k => t.heap.machine.pmm.bitmap.data (16 + k) = 0#8
  | _ => false

theorem oneSegment_clear : ∃ t, load bootCall (heapLoader (segmentFile 1#8)) = .ok (true, t) ∧
    ∀ k < 128, t.heap.machine.pmm.bitmap.data (16 + k) = 0#8 := by
  have h : loadedClear = true := by decide +kernel
  unfold loadedClear at h
  split at h
  next t hload =>
    refine ⟨t, hload, fun k hk => ?_⟩
    exact of_decide_eq_true (List.all_eq_true.mp h k (List.mem_range.mpr hk))
  next => cases h

theorem oneSegment_intact : Intact bootCall (oneSegment 1#8) := by
  have hcase : (1#8 : Byte) = 0#8 ∨ (1#8 : Byte) = 1#8 := Or.inr rfl
  refine ⟨fun i hi => ?_, oneSegment_unshared.bytes (by decide) fun phdr hmem => ?_⟩
  · obtain ⟨hcount, -⟩ := oneSegment_header hcase
    rw [hcount] at hi
    rw [Nat.lt_one_iff.mp hi]
    exact ⟨fun _ => by decide, fun _ _ => by decide⟩
  · rw [oneSegment_segments hcase hmem]
    decide

theorem oneSegment_stackClear : StackClear bootCall (oneSegment 1#8) := by
  intro x hx
  cases hfirst : firstPage bootCall (segments (oneSegment 1#8)) (Task.stackByte x) with
  | none => rfl
  | some y =>
    obtain ⟨hmem, hsame⟩ := firstPage_holds hfirst
    obtain ⟨phdr, hphdr, hy⟩ := List.mem_flatMap.mp hmem
    obtain ⟨i, hi, rfl⟩ := List.mem_map.mp hy
    obtain rfl := oneSegment_segments (Or.inr rfl) hphdr
    have hcount : pageCount (filePhdr (oneSegment 1#8) 0) = 1 := by decide
    rw [hcount, List.mem_range, Nat.lt_one_iff] at hi
    subst hi
    have haddr : pageAddress bootCall (filePhdr (oneSegment 1#8) 0) 0 = 0x400000 := by decide
    rw [haddr] at hsame
    unfold SamePage Task.stackByte userStackBase stackSize at *
    omega

theorem oneSegment_launched : ∃ t, load bootCall (heapLoader (segmentFile 1#8)) = .ok (true, t) ∧
    Launched bootCall (oneSegment 1#8) t.heap.machine 0x400000#64
      (loadedAuxv bootCall (oneSegment 1#8) ⟨0, 0, 0, 0⟩)
      (Task.create t.heap.machine ⟨0⟩ 0x400000#64 (some t.auxv) (some bootCall.space)) := by
  have hcase : (1#8 : Byte) = 0#8 ∨ (1#8 : Byte) = 1#8 := Or.inr rfl
  obtain ⟨L, hs⟩ := boot_sound 1#8
  obtain ⟨t, hload, hclear⟩ := oneSegment_clear
  have ho := boot_opened 1#8
  have hf := oneSegment_loadable hcase
  have he := boot_enough hcase
  obtain ⟨⟨placed, hp⟩, -⟩ := ho.progress hs hf he hload
  obtain ⟨live, L', hsound, -⟩ := hp.sound
  have hpages : 1024 ≤ freePages t.heap.machine := clear_free hclear
  have hstackPages : Task.stackPages = 256 := by decide
  have hrun : Mmap.RunFree t.heap.machine Task.stackPages := by
    refine ⟨128, by decide, fun i hle hlt => clear_unused hclear hle ?_⟩
    omega
  have hvacant : Task.StackVacant bootCall.space (heapLoader (segmentFile 1#8)).heap.machine := by
    have hsame := (Sound.init bootMachine_ok bootMachine_tables (by decide +kernel)).2
    intro x _
    have hpte : pte Heap.bootHeap.machine bootCall.space.pml4 (Task.stackByte x) = 0#64 :=
      (hsame _).trans (Mmap.boot_pte _)
    exact (congrArg (· &&& ptePresent) hpte).trans (by decide)
  refine ⟨t, hload, program_starts ho hs hf (by decide) (boot_vacant 1#8) he oneSegment_intact hvacant
    oneSegment_stackClear hload ⟨0⟩ 0x400000#64 ?_⟩
  exact create_granted (Pmm.source_complete 8 bootPmm_limit) hsound.heap.ok hp.granted hrun
    (by omega) ⟨0⟩ 0x400000#64 t.auxv bootCall.space

end OneSegment

end Elf

end UmbraOS
