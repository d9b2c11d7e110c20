import UmbraOS.Mmap
import UmbraOS.Runs

namespace UmbraOS

namespace Vmm

variable {P : PageSource pageSize}

/-- The allocator only takes pages that were not used. -/
theorem reserve_grows {m : Machine P} {root : Nat} {pmm : P.State} {refused : Bool} (hm : m.Ok)
    (ht : Tables m root) (hok : P.Ok pmm) (hu : ∀ q, m.Used q → P.used pmm q)
    (hr : m.refused = true → refused = true) : Grows root m ⟨m.mem, pmm, m.hhdm, refused⟩ := by
  refine ⟨⟨hok, hm.aligned, hm.window, hm.bound⟩, ⟨ht.distinct, ?_⟩, rfl, fun _ _ _ h => h,
    fun _ _ _ => rfl, hu, fun _ _ h => ⟨h, fun _ _ => rfl⟩, hr⟩
  intro ys q hy hwy
  obtain ⟨qp, hq, hq'⟩ := ht.owned ys q hy hwy
  exact ⟨qp, hq, hu qp hq'⟩

theorem alloc_grows {m : Machine P} {root : Nat} (hm : m.Ok) (ht : Tables m root) (n : Nat) :
    Grows root m (m.alloc n).2 := by
  rcases Nat.eq_zero_or_pos n with rfl | hn
  · exact Grows.refl hm ht
  · have ha := Machine.alloc_spec hm hn
    generalize m.alloc n = r at ha ⊢
    cases ha with
    | refused pmm ok used =>
      exact reserve_grows hm ht ok (fun q hq => (used q).mpr hq) fun _ => rfl
    | run page pmm ok positive inside fresh used =>
      exact reserve_grows hm ht ok (fun q hq => (used q).mpr (Or.inl hq)) fun h => h

/-- An allocation that is not refused takes a run of pages that were not used. -/
theorem alloc_run {m : Machine P} {n : Nat} (hm : m.Ok) (hn : 0 < n)
    (hr : (m.alloc n).2.refused = false) : ∃ page, (m.alloc n).1 = page * pageSize ∧
      page + n ≤ P.bound ∧ (∀ i, page ≤ i → i < page + n → ¬m.Used i) ∧
      ∀ i, page ≤ i → i < page + n → (m.alloc n).2.Used i := by
  have ha := Machine.alloc_spec hm hn
  generalize m.alloc n = r at ha hr ⊢
  cases ha with
  | refused pmm ok used => cases hr
  | run page pmm ok positive inside fresh used =>
    exact ⟨page, rfl, inside, fresh, fun i hi hl => (used i).mpr (Or.inr ⟨hi, hl⟩)⟩

theorem samePage_u64 (v : Nat) : SamePage (u64 v) v := by
  unfold SamePage u64
  omega

/-- The page of a byte of an aligned range. -/
theorem samePage_byte {base : Nat} (h : pageSize ∣ base) (k : Nat) :
    SamePage (u64 (base + k / pageSize * pageSize)) (base + k) := by
  obtain ⟨q, rfl⟩ := h
  unfold SamePage u64 pageSize
  omega

theorem page_inj {p q : Nat} (hp : p < P.bound) (hq : q < P.bound) {m : Machine P} (hm : m.Ok)
    (h : BitVec.ofNat 64 (p * pageSize) = BitVec.ofNat 64 (q * pageSize)) : p = q := by
  have hb := hm.bound
  have hn := congrArg BitVec.toNat h
  rw [BitVec.toNat_ofNat, BitVec.toNat_ofNat] at hn
  unfold pageSize at hn
  omega

end Vmm

namespace Mmap

open Vmm

variable {P : PageSource pageSize} (abi : VmFlags)

/-- The step of a task from one call to the next. -/
def move (s : UserTask × Machine P) (call : MmapCall) : UserTask × Machine P :=
  (sysMmap abi s.2 s.1 call).2

/-- The calls of a run with the addresses they return. -/
def returned : UserTask × Machine P → List MmapCall → List (BitVec 64 × MmapCall)
  | _, [] => []
  | s, call :: calls => ((sysMmap abi s.2 s.1 call).1, call) :: returned (move abi s call) calls

/-- A byte of the address space is backed by a page that the allocator counts as used. -/
def Backed (m : Machine P) (root w : Nat) : Prop :=
  pte m root w &&& ptePresent ≠ 0#64 ∧ ∃ page, page < P.bound ∧ m.Used page ∧
    pteGetAddr (pte m root w) = BitVec.ofNat 64 (page * pageSize)

/-- The bytes of the range of a call. -/
def InRange (a : BitVec 64 × MmapCall) (w : Nat) : Prop :=
  ∃ k, k < a.2.size.toNat ∧ w = a.1.toNat + k

/-- Two ranges have no page and no frame in common. -/
def Apart (m : Machine P) (root : Nat) (a b : BitVec 64 × MmapCall) : Prop :=
  ∀ v w, InRange a v → InRange b w →
    ¬SamePage v w ∧ pteGetAddr (pte m root v) ≠ pteGetAddr (pte m root w)

/-- What holds of the ranges returned so far. -/
structure Serving (m : Machine P) (root : Nat) (ranges : List (BitVec 64 × MmapCall)) :
    Prop where
  ok : m.Ok
  tables : Tables m root
  hints : ∀ a ∈ ranges, a.1 ≠ 0#64 → a.2.hint ≠ 0#64 → a.1 = a.2.hint
  backed : ∀ a ∈ ranges, a.1 ≠ 0#64 → ∀ w, InRange a w → Backed m root w
  apart : ranges.Pairwise fun a b => a.1 ≠ 0#64 → b.1 ≠ 0#64 → Apart m root a b

/-- The call leaves its pages to `heap_cur`, which lies on a page boundary, it asks for whole
pages, and the pages there are free. -/
def Meets (s : UserTask × Machine P) (call : MmapCall) : Prop :=
  Accepted abi call → (call.hint = 0#64 ∨ call.hint = s.1.heapCur) ∧
    (call.size = 0#64 ∨ pageSize ∣ s.1.heapCur.toNat ∧ pageSize ∣ call.size.toNat) ∧
    ∀ k, k < call.size.toNat →
      pte s.2 s.1.addressSpace.pml4 (s.1.heapCur.toNat + k) &&& ptePresent = 0#64

variable {abi}

theorem Backed.of_keeps {m m' : Machine P} {root w : Nat} (hk : Keeps root m m')
    (hsame : pte m' root w = pte m root w) (h : Backed m root w) : Backed m' root w := by
  obtain ⟨hpresent, page, hb, hu, hframe⟩ := h
  rw [Backed, hsame]
  exact ⟨hpresent, page, hb, hk.used page hu, hframe⟩

/-- The mapping that serves a byte of the range of a call. -/
theorem find_mapping (abi : VmFlags) {task : UserTask} {call : MmapCall} (addr : Nat) {k : Nat}
    (halign : pageSize ∣ (target task call).toNat) (hk : k / pageSize < pages call) :
    ∃ i, i < pages call ∧ (mappings abi task call addr).find?
        (fun x => SamePage x.virt ((target task call).toNat + k)) =
      some ⟨u64 ((target task call).toNat + i * pageSize), u64 (addr + i * pageSize),
        pageFlags abi call.prot⟩ := by
  cases hfind : (mappings abi task call addr).find?
      (fun x => SamePage x.virt ((target task call).toNat + k)) with
  | none =>
    have hx : ⟨u64 ((target task call).toNat + k / pageSize * pageSize),
        u64 (addr + k / pageSize * pageSize), pageFlags abi call.prot⟩ ∈
        mappings abi task call addr :=
      AddressSpace.mem_rangeMappings.mpr ⟨k / pageSize, hk, rfl⟩
    have hno := List.find?_eq_none.mp hfind _ hx
    exact absurd (decide_eq_true (samePage_byte halign k)) hno
  | some x =>
    obtain ⟨i, hi, rfl⟩ := AddressSpace.mem_rangeMappings.mp (List.mem_of_find?_eq_some hfind)
    exact ⟨i, hi, rfl⟩

theorem Meets.target {s : UserTask × Machine P} {call : MmapCall} (h : Meets abi s call)
    (hacc : Accepted abi call) : target s.1 call = s.1.heapCur := by
  unfold Mmap.target
  rcases (h hacc).1 with hh | hh
  · rw [if_pos hh]
  · split
    next => rfl
    next => exact hh

/-- The bytes of the range of a call are mapped to pages that were not used before. -/
theorem newRange {m : Machine P} {task : UserTask} {call : MmapCall} (hm : m.Ok)
    (ht : Tables m task.addressSpace.pml4) (hmeets : Meets abi (task, m) call)
    (hacc : Accepted abi call) (hr : (sysMmap abi m task call).2.2.refused = false) {w : Nat}
    (hw : InRange (task.heapCur, call) w) :
    pte (sysMmap abi m task call).2.2 task.addressSpace.pml4 w &&& ptePresent ≠ 0#64 ∧
      ∃ page, page < P.bound ∧ ¬m.Used page ∧ (sysMmap abi m task call).2.2.Used page ∧
        pteGetAddr (pte (sysMmap abi m task call).2.2 task.addressSpace.pml4 w) =
          BitVec.ofNat 64 (page * pageSize) := by
  obtain ⟨k, hlt, rfl⟩ := hw
  have hk : k < call.size.toNat := hlt
  obtain ⟨-, hsize, hfree⟩ := hmeets hacc
  have htarget := hmeets.target hacc
  obtain ⟨hbase, hwhole⟩ : pageSize ∣ task.heapCur.toNat ∧ pageSize ∣ call.size.toNat := by
    refine hsize.resolve_left fun hzero => ?_
    rw [hzero] at hk
    exact Nat.not_lt_zero _ hk
  have hpages : k / pageSize < pages call := by
    obtain ⟨q, hq⟩ := hwhole
    unfold pages pageSize at *
    omega
  have hg := alloc_grows hm ht (pages call)
  rw [sysMmap_accepted abi hacc] at hr ⊢
  simp only at hr htarget hfree ⊢
  have hkeeps := mapAll_keeps hg.ok hg.tables (mappings abi task call (m.alloc (pages call)).1)
  obtain ⟨page, haddr, hin, hfresh, hused⟩ :=
    alloc_run hm (Nat.lt_of_le_of_lt (Nat.zero_le _) hpages) (not_refused hkeeps hr)
  rw [haddr] at hkeeps hr ⊢
  have hpresent : ∀ x ∈ mappings abi task call (page * pageSize),
      x.flags &&& ptePresent ≠ 0#64 := by
    intro x hx
    obtain ⟨i, -, rfl⟩ := AddressSpace.mem_rangeMappings.mp hx
    exact pageFlags_present abi call.prot
  have hnew := mapAll_pte hg.ok hg.tables hpresent hr (task.heapCur.toNat + k)
  rw [← htarget] at hbase
  obtain ⟨i, hi, hfind⟩ := find_mapping abi (page * pageSize) hbase hpages
  rw [htarget] at hfind
  have hbefore : ¬pte (m.alloc (pages call)).2 task.addressSpace.pml4 (task.heapCur.toNat + k) &&&
      ptePresent ≠ 0#64 := by
    rw [hg.pte]
    exact not_not.mpr (hfree k hk)
  rw [if_neg hbefore, hfind] at hnew
  have hb := hm.bound
  have hphys : u64 (page * pageSize + i * pageSize) = (page + i) * pageSize := by
    rw [← Nat.add_mul]
    exact u64_of_lt (by unfold pageSize; omega)
  rw [hnew]
  simp only [Mapping.entry, hphys]
  refine ⟨present_or (pageFlags_present abi call.prot), page + i, by omega,
    hfresh _ (by omega) (by omega), hkeeps.used _ (hused _ (by omega) (by omega)), ?_⟩
  exact pteGetAddr_entry (by omega) (pageFlags_addr abi call.prot)

/-- A call keeps what was served before it, whatever its arguments are. -/
theorem sysMmap_present (abi : VmFlags) {m : Machine P} {task : UserTask} (call : MmapCall)
    (hm : m.Ok)
    (ht : Tables m task.addressSpace.pml4) :
    Keeps task.addressSpace.pml4 m (sysMmap abi m task call).2.2 ∧
      ∀ w, pte m task.addressSpace.pml4 w &&& ptePresent ≠ 0#64 →
        pte (sysMmap abi m task call).2.2 task.addressSpace.pml4 w =
          pte m task.addressSpace.pml4 w := by
  by_cases hacc : Accepted abi call
  · have hg := alloc_grows hm ht (pages call)
    rw [sysMmap_accepted abi hacc]
    refine ⟨hg.keeps_others.trans (mapAll_keeps hg.ok hg.tables _), fun w hw => ?_⟩
    rw [← hg.pte] at hw ⊢
    exact mapAll_present hg.ok hg.tables hw _
  · rw [sysMmap_rejected abi hacc]
    exact ⟨(Grows.refl hm ht).keeps_others, fun _ _ => rfl⟩

/-- A call keeps the ranges served before it. -/
theorem Serving.keep (abi : VmFlags) {m : Machine P} {task : UserTask} (call : MmapCall)
    {ranges : List (BitVec 64 × MmapCall)} (hs : Serving m task.addressSpace.pml4 ranges) :
    Serving (sysMmap abi m task call).2.2 task.addressSpace.pml4 ranges := by
  obtain ⟨hk, hsame⟩ := sysMmap_present abi call hs.ok hs.tables
  refine ⟨hk.ok, hk.tables, hs.hints, ?_, ?_⟩
  · intro a ha hne w hw
    have hb := hs.backed a ha hne w hw
    exact hb.of_keeps hk (hsame w hb.1)
  · refine hs.apart.imp_of_mem fun {a b} ha hb h hna hnb v w hv hw => ?_
    rw [hsame v (hs.backed a ha hna v hv).1, hsame w (hs.backed b hb hnb w hw).1]
    exact h hna hnb v w hv hw

/-- One call adds its range to the ranges served. -/
theorem Serving.call {m : Machine P} {task : UserTask} {call : MmapCall}
    {ranges : List (BitVec 64 × MmapCall)} (hs : Serving m task.addressSpace.pml4 ranges)
    (hmeets : Meets abi (task, m) call)
    (hr : (sysMmap abi m task call).2.2.refused = false) :
    Serving (sysMmap abi m task call).2.2 task.addressSpace.pml4
      (ranges ++ [((sysMmap abi m task call).1, call)]) := by
  have hkept := hs.keep abi call
  by_cases hacc : Accepted abi call
  · have hret : (sysMmap abi m task call).1 = task.heapCur := by rw [sysMmap_accepted abi hacc]
    have hnew : ∀ w, InRange (task.heapCur, call) w → _ := fun w hw =>
      newRange hs.ok hs.tables hmeets hacc hr hw
    rw [hret]
    refine ⟨hkept.ok, hkept.tables, ?_, ?_, ?_⟩
    · intro a ha hne hhint
      rcases List.mem_append.mp ha with ha | ha
      · exact hkept.hints a ha hne hhint
      · obtain rfl := List.mem_singleton.mp ha
        exact ((hmeets hacc).1.resolve_left hhint).symm
    · intro a ha hne w hw
      rcases List.mem_append.mp ha with ha | ha
      · exact hkept.backed a ha hne w hw
      · obtain rfl := List.mem_singleton.mp ha
        obtain ⟨hpresent, page, hb, -, hused, hframe⟩ := hnew w hw
        exact ⟨hpresent, page, hb, hused, hframe⟩
    · refine List.pairwise_append.mpr ⟨hkept.apart, List.pairwise_singleton _ _, ?_⟩
      intro a ha b hb hna hnb v w hv hw
      obtain rfl := List.mem_singleton.mp hb
      obtain ⟨hpresent, page, hin, hfresh, -, hframe⟩ := hnew w hw
      have hold := hs.backed a ha hna v hv
      have hsame := (sysMmap_present abi call hs.ok hs.tables).2 v hold.1
      obtain ⟨hthere, page', hin', hused, hframe'⟩ := hold
      constructor
      · intro hpage
        obtain ⟨k, hk, rfl⟩ := hw
        rw [hpage.pte, (hmeets hacc).2.2 k hk] at hthere
        exact hthere rfl
      · intro he
        rw [hsame, hframe', hframe] at he
        obtain rfl := page_inj hin' hin hs.ok he
        exact hfresh hused
  · have hret : (sysMmap abi m task call).1 = 0#64 := by rw [sysMmap_rejected abi hacc]
    have hzero : ∀ a ∈ [((sysMmap abi m task call).1, call)], a.1 = 0#64 := by
      intro a ha
      obtain rfl := List.mem_singleton.mp ha
      exact hret
    refine ⟨hkept.ok, hkept.tables, ?_, ?_, ?_⟩
    · intro a ha hne hhint
      exact hkept.hints a ((List.mem_append.mp ha).resolve_right fun h => hne (hzero a h)) hne hhint
    · intro a ha hne w hw
      exact hkept.backed a ((List.mem_append.mp ha).resolve_right fun h => hne (hzero a h)) hne w hw
    · refine List.pairwise_append.mpr ⟨hkept.apart, List.pairwise_singleton _ _, ?_⟩
      intro a ha b hb hna hnb
      exact absurd (hzero b hb) hnb

theorem move_space (s : UserTask × Machine P) (call : MmapCall) :
    (move abi s call).1.addressSpace = s.1.addressSpace := by
  unfold move
  by_cases hacc : Accepted abi call
  · rw [sysMmap_accepted abi hacc]
  · rw [sysMmap_rejected abi hacc]

/-- What was refused in a run stays recorded. -/
theorem run_refused {s : UserTask × Machine P} (hm : s.2.Ok)
    (ht : Tables s.2 s.1.addressSpace.pml4) (calls : List MmapCall)
    (hr : (calls.foldl (move abi) s).2.refused = false) : s.2.refused = false := by
  induction calls generalizing s with
  | nil => exact hr
  | cons call calls ih =>
    have hk := (sysMmap_present abi call hm ht).1
    have htables : Tables (move abi s call).2 (move abi s call).1.addressSpace.pml4 := by
      rw [move_space]
      exact hk.tables
    exact not_refused hk (ih hk.ok htables hr)

/-- The ranges that the calls of a run return are served at its end. -/
theorem Serving.run {s : UserTask × Machine P} {ranges : List (BitVec 64 × MmapCall)}
    (hs : Serving s.2 s.1.addressSpace.pml4 ranges) {calls : List MmapCall}
    (hmeets : StepsMeet (move abi) (Meets abi) s calls)
    (hr : (calls.foldl (move abi) s).2.refused = false) :
    Serving (calls.foldl (move abi) s).2 s.1.addressSpace.pml4 (ranges ++ returned abi s calls) := by
  induction calls generalizing s ranges with
  | nil =>
    rw [returned, List.append_nil]
    exact hs
  | cons call calls ih =>
    have hk := (sysMmap_present abi call hs.ok hs.tables).1
    have hspace : (move abi s call).1.addressSpace = s.1.addressSpace := move_space s call
    have htables : Tables (move abi s call).2 (move abi s call).1.addressSpace.pml4 := by
      rw [hspace]
      exact hk.tables
    have hnow := hs.call hmeets.1 (run_refused hk.ok htables calls hr)
    rw [← hspace] at hnow
    have hrun : Serving (calls.foldl (move abi) (move abi s call)).2
        (move abi s call).1.addressSpace.pml4
        (ranges ++ [((sysMmap abi s.2 s.1 call).1, call)] ++ returned abi (move abi s call) calls) :=
      ih hnow hmeets.2 hr
    rw [List.append_assoc, hspace] at hrun
    exact hrun

/-- After a run of calls, every address that was returned and is not null is the hint, if one
was given, and its range is mapped; the ranges have no byte and no frame in common. -/
structure Serves (abi : VmFlags) (start : UserTask × Machine P) (calls : List MmapCall) :
    Prop where
  mapped : ∀ a ∈ returned abi start calls, a.1 ≠ 0#64 →
    (a.2.hint ≠ 0#64 → a.1 = a.2.hint) ∧ ∀ w, InRange a w →
      (start.1.addressSpace.virtToPhys (calls.foldl (move abi) start).2 (u64 w)).1 ≠
        BitVec.allOnes 64
  apart : (returned abi start calls).Pairwise fun a b => a.1 ≠ 0#64 → b.1 ≠ 0#64 →
    ∀ v w, InRange a v → InRange b w → u64 v ≠ u64 w ∧
      (start.1.addressSpace.virtToPhys (calls.foldl (move abi) start).2 (u64 v)).1 ≠
        (start.1.addressSpace.virtToPhys (calls.foldl (move abi) start).2 (u64 w)).1

theorem mmap_serves {start : UserTask × Machine P} {calls : List MmapCall} (hm : start.2.Ok)
    (ht : Tables start.2 start.1.addressSpace.pml4)
    (hr : (calls.foldl (move abi) start).2.refused = false)
    (hmeets : StepsMeet (move abi) (Meets abi) start calls) : Serves abi start calls := by
  have hnone : Serving start.2 start.1.addressSpace.pml4 [] :=
    ⟨hm, ht, (fun a ha => by cases ha), (fun a ha => by cases ha), List.Pairwise.nil⟩
  have hs := hnone.run hmeets hr
  rw [List.nil_append] at hs
  have htranslate : ∀ w, (start.1.addressSpace.virtToPhys (calls.foldl (move abi) start).2
      (u64 w)).1 = translation (pte (calls.foldl (move abi) start).2
        start.1.addressSpace.pml4 w) := by
    intro w
    rw [virtToPhys_eq hs.ok hs.tables, (samePage_u64 w).pte]
  refine ⟨fun a ha hne => ⟨hs.hints a ha hne, fun w hw => ?_⟩, ?_⟩
  · rw [htranslate]
    intro hall
    exact (hs.backed a ha hne w hw).1 (translation_allOnes.mp hall)
  · refine hs.apart.imp_of_mem fun {a b} ha hb h hna hnb v w hv hw => ?_
    obtain ⟨hpage, hframe⟩ := h hna hnb v w hv hw
    constructor
    · intro he
      refine hpage ?_
      have hv' := samePage_u64 v
      rw [he] at hv'
      exact hv'.symm.trans (samePage_u64 w)
    · rw [htranslate, htranslate, translation, translation,
        if_neg (hs.backed a ha hna v hv).1, if_neg (hs.backed b hb hnb w hw).1]
      exact hframe

/-- The values of the Linux ABI. -/
def linuxFlags : VmFlags := ⟨2#32, 4#32, 32#32, 1#32⟩

/-- A private anonymous mapping of one page. -/
def onePage (hint : BitVec 64) : MmapCall := ⟨hint, 4096#64, 3#32, 34#32, -1#32, 0#64⟩

def bootTask : UserTask := ⟨bootSpace, 0x400000#64⟩

theorem boot_pte (w : Nat) : pte bootMachine bootSpace.pml4 w = 0#64 := by
  have hzero : ∀ a, bootMachine.mem.load64 a = 0#64 := by
    intro a
    simp [bootMachine, Memory.load64]
  apply leafEntry_of_missing
  rw [tablePath, walk, nextTable, entry, hzero, if_neg (by decide), Option.bind_none]

/-- A private anonymous mapping of two pages at the heap end of the boot task after one page. -/
def twoPages : MmapCall := ⟨0x401000#64, 8192#64, 3#32, 34#32, -1#32, 0#64⟩

theorem calls_serve :
    (returned linuxFlags (bootTask, bootMachine) [onePage 0#64, twoPages]).map Prod.fst =
      [0x400000#64, 0x401000#64] ∧
    Serves linuxFlags (bootTask, bootMachine) [onePage 0#64, twoPages] := by
  refine ⟨by decide +kernel, mmap_serves bootMachine_ok bootMachine_tables (by decide +kernel)
    ⟨fun _ => ⟨Or.inl rfl, Or.inr (by decide), fun k _ => ?_⟩, fun _ => ⟨Or.inr ?_, ?_, fun k hk => ?_⟩,
      trivial⟩⟩
  · exact congrArg (· &&& ptePresent) (boot_pte _)
  · decide +kernel
  · exact Or.inr (by decide +kernel)
  · have hfree : ∀ page < 2, pte (move linuxFlags (bootTask, bootMachine) (onePage 0#64)).2
        bootSpace.pml4 (0x401000 + page * 4096) = 0#64 := by decide +kernel
    have hcur : (move linuxFlags (bootTask, bootMachine) (onePage 0#64)).1.heapCur.toNat = 0x401000 := by
      decide +kernel
    have hk : k < 8192 := hk
    have hpage : SamePage (0x401000 + k) (0x401000 + k / 4096 * 4096) := by
      unfold SamePage
      omega
    rw [hcur, hpage.pte, move_space]
    exact congrArg (· &&& ptePresent) (hfree _ (by omega))

/-- A call with a hint maps the page at the hint and returns `heap_cur`. -/
theorem hinted_not_served :
    ([onePage 0x500000#64].foldl (move linuxFlags) (bootTask, bootMachine)).2.refused = false ∧
      pte bootMachine bootSpace.pml4 0x500000 = 0#64 ∧
      ¬Serves linuxFlags (bootTask, bootMachine) [onePage 0x500000#64] := by
  refine ⟨by decide +kernel, boot_pte _, fun h => ?_⟩
  have hacc : Accepted linuxFlags (onePage 0x500000#64) := by decide
  have hret : (0x400000#64, onePage 0x500000#64) ∈
      returned linuxFlags (bootTask, bootMachine) [onePage 0x500000#64] := by
    rw [returned, sysMmap_accepted linuxFlags hacc]
    exact List.mem_cons_self
  have hhint := (h.mapped _ hret (by decide)).1 (by decide)
  revert hhint
  decide

end Mmap

end UmbraOS
