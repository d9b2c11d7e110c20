import UmbraOS.ElfTurns

namespace UmbraOS

namespace Slab

/-- The block that `alloc` returns is the head of a free list that is not empty. -/
theorem alloc_ne_zero {P : PageSource pageSize} {m : Machine P} {slabSize fuel slab : Nat}
    {r : Nat × Machine P} (hr : Slab.alloc slabSize fuel m slab = some r) : r.1 ≠ 0 := by
  induction fuel generalizing m slab with
  | zero => cases hr
  | succ fuel ih =>
    rw [Slab.alloc] at hr
    split at hr
    next => exact ih hr
    next hfree =>
      obtain rfl := Option.some.inj hr
      intro hz
      exact hfree (BitVec.eq_of_toNat_eq hz)

end Slab

theorem Heap.kcalloc_ne_zero {P : PageSource pageSize} {h : Heap P} {size : Nat} {r : Nat × Heap P}
    (hr : h.kcalloc size = some r) : r.1 ≠ 0 := by
  obtain ⟨x, hx, rfl⟩ := Option.map_eq_some_iff.mp hr
  rw [Heap.kmalloc] at hx
  split at hx
  next =>
    obtain ⟨y, hy, rfl⟩ := Option.map_eq_some_iff.mp hx
    exact Slab.alloc_ne_zero hy
  next =>
    obtain rfl := Option.some.inj hx
    exact Nat.ne_of_gt (Nat.add_pos_right _ (by decide))

namespace Elf

variable {P : PageSource pageSize} {call : ElfCall} {header : Ehdr} {phdr : Phdr}
  {s t u : Loader P} {a : Nat} {node : Node}

/-- The descriptor `a` is open for reading on the file `node`, at a position. -/
def BehindAt (s : Loader P) (a : Nat) (node : Node) (position : Nat) : Prop :=
  ∃ d, s.vfs.descriptors.cell a = some d ∧ s.vfs.nodes.cell d.node = some node ∧
    node.type = .file ∧ d.mode ≠ .writeOnly ∧ d.rwPosition = position

def Behind (s : Loader P) (a : Nat) (node : Node) : Prop := ∃ position, BehindAt s a node position

/-- What a read of `length` bytes at `position` does: past the end it does nothing, and
elsewhere it copies all the bytes. -/
inductive Reads (s : Loader P) (a : Nat) (node : Node) (position offset length size : Nat) :
    BitVec 64 × Option Memory × Loader P → Prop
  | past (t : Loader P) (ended : node.fileSize ≤ position) (behind : Behind t a node)
      (heap : t.heap = s.heap) (accesses : t.vfs.accesses = s.vfs.accesses)
      (copies : t.copies = s.copies) : Reads s a node position offset length size (-1, none, t)
  | copied (t : Loader P) (starts : position < node.fileSize) (behind : Behind t a node)
      (heap : t.heap = s.heap)
      (accesses : t.vfs.accesses = ⟨position, length, node.fileData.allocated⟩ :: s.vfs.accesses)
      (copies : t.copies = ⟨offset, length, size⟩ :: s.copies) :
      Reads s a node position offset length size
        (BitVec.ofNat 64 length, some (node.fileData.bytesFrom position), t)

theorem readInto_reads {position : Nat} (h : BehindAt s a node position)
    (offset length size : Nat) : ∃ r, readInto s (some a) offset length size = .ok r ∧
      Reads s a node position offset length size r := by
  obtain ⟨d, hd, hn, hfile, hmode, rfl⟩ := h
  have hother : ¬(d.mode = .writeOnly ∨ node.type = .directory) := by
    rw [hfile]
    exact fun h => h.elim hmode (fun h => by cases h)
  unfold readInto Vfs.read
  simp only [CellStore.read_live hd, CellStore.read_live hn, Except.ok_bind, ge_iff_le]
  by_cases hp : node.fileSize ≤ d.rwPosition
  · rw [if_pos (Or.inl hp)]
    exact ⟨_, rfl, Reads.past s hp ⟨_, d, hd, hn, hfile, hmode, rfl⟩ rfl rfl rfl⟩
  · rw [if_neg (fun h => h.elim hp hother)]
    have hlt : d.rwPosition < node.fileSize := Nat.lt_of_not_le hp
    refine ⟨_, rfl, Reads.copied _ hlt ?_ rfl ?_ rfl⟩
    · split
      next => exact ⟨_, d, hd, hn, hfile, hmode, rfl⟩
      next => exact ⟨_, _, CellStore.adjust_cell_self _ hd, hn, hfile, hmode, rfl⟩
    · split
      next => rfl
      next => rfl

theorem readAt_reads (h : Behind s a node) (position offset length size : Nat) :
    ∃ r, readAt s (some a) position offset length size = .ok r ∧
      Reads s a node position offset length size r := by
  obtain ⟨p, d, hd, hn, hfile, hmode, -⟩ := h
  unfold readAt Vfs.seek
  simp only [CellStore.read_live hd, Except.ok_bind]
  let descriptors := s.vfs.descriptors.adjust a fun d => { d with rwPosition := position }
  have hset : BehindAt { s with vfs := { s.vfs with descriptors } } a node position :=
    ⟨_, CellStore.adjust_cell_self _ hd, hn, hfile, hmode, rfl⟩
  obtain ⟨r, hr, hreads⟩ := readInto_reads hset offset length size
  refine ⟨r, hr, ?_⟩
  cases hreads with
  | past t ended behind heap accesses copies =>
    exact Reads.past t ended behind heap accesses copies
  | copied t starts behind heap accesses copies =>
    exact Reads.copied t starts behind heap accesses copies

/-- Every byte read is one of the file, and every byte written is one of its buffer. -/
def Inside (node : Node) (s : Loader P) : Prop :=
  (∀ x ∈ s.vfs.accesses, x.offset + x.length ≤ node.fileSize) ∧
    ∀ x ∈ s.copies, x.offset + x.length ≤ x.allocated

theorem inside_congr (ha : t.vfs.accesses = s.vfs.accesses) (hc : t.copies = s.copies) :
    Inside node t ↔ Inside node s := by
  rw [Inside, Inside, ha, hc]

/-- A read that starts in the file ends in it, and fits into its buffer. -/
def ReadFits (node : Node) (position offset length size : Nat) : Prop :=
  position < node.fileSize → position + length ≤ node.fileSize ∧ offset + length ≤ size

/-- What `kcalloc` clears lies in the buffer if it is not larger. -/
theorem inside_cleared {n size : Nat} (ha : t.vfs.accesses = s.vfs.accesses)
    (hc : t.copies = ⟨0, n, size⟩ :: s.copies) : Inside node t ↔ Inside node s ∧ n ≤ size := by
  rw [Inside, Inside, ha, hc, List.forall_mem_cons, Nat.zero_add, and_comm (a := n ≤ size),
    and_assoc]

variable {position offset length size : Nat}

theorem Reads.inside_iff {r : BitVec 64 × Option Memory × Loader P}
    (h : Reads s a node position offset length size r) :
    Inside node r.2.2 ↔ Inside node s ∧ ReadFits node position offset length size := by
  cases h with
  | past t ended behind heap accesses copies =>
    rw [inside_congr accesses copies]
    exact ⟨fun h => ⟨h, fun hlt => absurd hlt (Nat.not_lt_of_le ended)⟩, fun h => h.1⟩
  | copied t starts behind heap accesses copies =>
    constructor
    · intro h
      obtain ⟨hreads, hwrites⟩ := h
      rw [accesses] at hreads
      rw [copies] at hwrites
      refine ⟨⟨fun x hx => hreads x (List.mem_cons_of_mem _ hx),
        fun x hx => hwrites x (List.mem_cons_of_mem _ hx)⟩, fun _ => ?_⟩
      exact ⟨hreads _ List.mem_cons_self, hwrites _ List.mem_cons_self⟩
    · intro h
      obtain ⟨hs, hfits⟩ := h
      obtain ⟨hread, hwrite⟩ := hfits starts
      refine ⟨fun x hx => ?_, fun x hx => ?_⟩
      · rw [accesses] at hx
        rcases List.mem_cons.mp hx with rfl | hx
        · exact hread
        · exact hs.1 x hx
      · rw [copies] at hx
        rcases List.mem_cons.mp hx with rfl | hx
        · exact hwrite
        · exact hs.2 x hx

theorem Reads.behind {r : BitVec 64 × Option Memory × Loader P}
    (h : Reads s a node position offset length size r) : Behind r.2.2 a node := by
  cases h with
  | past _ _ behind => exact behind
  | copied _ _ behind => exact behind

theorem Reads.heap {r : BitVec 64 × Option Memory × Loader P}
    (h : Reads s a node position offset length size r) : r.2.2.heap = s.heap := by
  cases h with
  | past _ _ _ heap => exact heap
  | copied _ _ _ heap => exact heap

/-- The only read that returns zero is one of no bytes that starts in the file. -/
theorem Reads.ret_iff {r : BitVec 64 × Option Memory × Loader P}
    (h : Reads s a node position offset length size r) (hl : length < 2 ^ 64) :
    r.1 ≠ 0#64 ↔ (position < node.fileSize → length ≠ 0) := by
  cases h with
  | past _ ended =>
    have hne : (-1 : BitVec 64) ≠ 0#64 := by decide
    exact ⟨fun _ hlt => absurd hlt (Nat.not_lt_of_le ended), fun _ => hne⟩
  | copied _ starts =>
    have hzero : BitVec.ofNat 64 length = 0#64 ↔ length = 0 := by
      rw [← BitVec.toNat_inj, BitVec.toNat_ofNat, BitVec.toNat_ofNat]
      omega
    exact ⟨fun h _ hz => h (hzero.mpr hz), fun h hz => h starts (hzero.mp hz)⟩

theorem Reads.bytes {r : BitVec 64 × Option Memory × Loader P}
    (h : Reads s a node position offset length size r) (junk : Memory) : r.2.1.getD junk =
      if position < node.fileSize then node.fileData.bytesFrom position else junk := by
  cases h with
  | past _ ended => rw [if_neg (Nat.not_lt_of_le ended), Option.getD_none]
  | copied _ starts => rw [if_pos starts, Option.getD_some]

/-- The header that the loader sees. -/
def headerSeen (call : ElfCall) (node : Node) : Ehdr :=
  Ehdr.ofBytes (if 0 < node.fileSize then node.fileData.bytesFrom 0 else call.headerJunk)

/-- Where the loader looks for a program header. -/
def phdrAt (header : Ehdr) (i : Nat) : Nat := u64 (header.phoff + i * header.phentsize)

/-- The program header that the loader sees. -/
def phdrSeen (call : ElfCall) (node : Node) (header : Ehdr) (i : Nat) : Phdr :=
  Phdr.ofBytes (if phdrAt header i < node.fileSize then node.fileData.bytesFrom (phdrAt header i)
    else call.phdrJunk i)

theorem phdrSeen_filesz_lt (call : ElfCall) (node : Node) (header : Ehdr) (i : Nat) :
    (phdrSeen call node header i).filesz < 2 ^ 64 := Memory.loadLe_lt _ 32 8

/-- The condition under which the case of a program header stays inside its buffers. -/
def CaseInside (node : Node) (phdr : Phdr) (h : Heap P) : Prop :=
  (phdr.type = ptLoad → (h.machine.calloc (pageCount phdr)).1 ≠ 0 →
    ReadFits node phdr.offset (misalign phdr) phdr.filesz (pageCount phdr * pageSize)) ∧
  (phdr.type = ptInterp → (h.kcalloc (u64 (phdr.filesz + 1))).isSome →
    u64 (phdr.filesz + 1) ≤ h.granted (u64 (phdr.filesz + 1)) ∧
    ReadFits node phdr.offset 0 phdr.filesz (h.granted (u64 (phdr.filesz + 1))))

/-- The condition under which the loader goes on after a program header. -/
def Passes (node : Node) (phdr : Phdr) (h : Heap P) : Prop :=
  (phdr.type = ptLoad → (h.machine.calloc (pageCount phdr)).1 ≠ 0) ∧
  (phdr.type = ptInterp → (h.kcalloc (u64 (phdr.filesz + 1))).isSome) ∧
  (phdr.type = ptLoad ∨ phdr.type = ptInterp → phdr.offset < node.fileSize → phdr.filesz ≠ 0)

/-- How the work on a program header ends in the state `s`: it stays inside exactly if `fits`
holds, and the loader goes on exactly if `passes` holds. -/
def Ends (a : Nat) (node : Node) (s : Loader P) (x : Except Trap (Bool × Loader P))
    (fits passes : Prop) : Prop :=
  (∃ go t, x = .ok (go, t) ∧ Behind t a node ∧ (Inside node t ↔ Inside node s ∧ fits) ∧
    (go = true ↔ passes)) ∨
  x = .error .timeout ∧ fits ∧ ¬passes

section Ends

variable {x : Except Trap (Bool × Loader P)} {fits passes : Prop}

theorem Ends.result (h : Ends a node s x fits passes) {go : Bool} (hx : x = .ok (go, t)) :
    Behind t a node ∧ (Inside node t ↔ Inside node s ∧ fits) ∧ (go = true ↔ passes) := by
  rcases h with ⟨go', t', hok, hrest⟩ | ⟨herr, -⟩
  · rw [hok] at hx
    cases hx
    exact hrest
  · rw [herr] at hx
    cases hx

theorem Ends.goes (h : Ends a node s x fits passes) (hp : passes) : ∃ t, x = .ok (true, t) := by
  rcases h with ⟨go, t, hok, -, -, hgo⟩ | ⟨-, -, hno⟩
  · rw [hgo.mpr hp] at hok
    exact ⟨t, hok⟩
  · exact absurd hp hno

theorem Ends.holds (h : Ends a node s x fits passes)
    (hin : ∀ go t, x = .ok (go, t) → Inside node t) : fits := by
  rcases h with ⟨go, t, hok, -, hinside, -⟩ | ⟨-, hfits, -⟩
  · exact (hinside.mp (hin go t hok)).2
  · exact hfits

end Ends

theorem loadSegment_ends (hfd : call.fd = some a) (hb : Behind s a node)
    (hl : phdr.filesz < 2 ^ 64) : Ends a node s (loadSegment call phdr s)
      ((s.heap.machine.calloc (pageCount phdr)).1 ≠ 0 →
        ReadFits node phdr.offset (misalign phdr) phdr.filesz (pageCount phdr * pageSize))
      ((s.heap.machine.calloc (pageCount phdr)).1 ≠ 0 ∧
        (phdr.offset < node.fileSize → phdr.filesz ≠ 0)) := by
  left
  rw [loadSegment]
  generalize s.heap.machine.calloc (pageCount phdr) = r
  obtain ⟨phys, m⟩ := r
  simp only
  by_cases hphys : phys = 0
  · rw [if_pos hphys]
    refine ⟨false, _, rfl, hb, ?_, ?_⟩
    · exact ⟨fun h => ⟨h, fun hne => absurd hphys hne⟩, fun h => h.1⟩
    · exact ⟨fun h => (Bool.false_ne_true h).elim, fun h => absurd hphys h.1⟩
  · rw [if_neg hphys, hfd]
    generalize call.space.mapRange m (u64 (phdr.vaddr + call.loadBase)) phys (pageCount phdr)
      (segmentFlags phdr.flags) = m'
    have hmapped : Behind { s with heap := { s.heap with machine := m' } } a node := hb
    obtain ⟨⟨ret, bytes, t⟩, hr, hreads⟩ := readAt_reads hmapped phdr.offset (misalign phdr)
      phdr.filesz (pageCount phdr * pageSize)
    have hinside := hreads.inside_iff
    have hret := hreads.ret_iff hl
    have hbehind : Behind t a node := hreads.behind
    rw [hr, Except.ok_bind]
    have hgoes : decide (ret ≠ 0#64) = true ↔
        phys ≠ 0 ∧ (phdr.offset < node.fileSize → phdr.filesz ≠ 0) := by
      rw [decide_eq_true_iff, and_iff_right hphys]
      exact hret
    have hfits : Inside node t ↔ Inside node s ∧ (phys ≠ 0 → ReadFits node phdr.offset
        (misalign phdr) phdr.filesz (pageCount phdr * pageSize)) := by
      rw [forall_prop_of_true hphys]
      exact hinside
    cases bytes with
    | none => exact ⟨_, t, rfl, hbehind, hfits, hgoes⟩
    | some bytes => exact ⟨_, _, rfl, hbehind, hfits, hgoes⟩

theorem loadInterp_ends (hfd : call.fd = some a) (hb : Behind s a node)
    (hl : phdr.filesz < 2 ^ 64) : Ends a node s (loadInterp call phdr s)
      ((s.heap.kcalloc (u64 (phdr.filesz + 1))).isSome →
        u64 (phdr.filesz + 1) ≤ s.heap.granted (u64 (phdr.filesz + 1)) ∧
        ReadFits node phdr.offset 0 phdr.filesz (s.heap.granted (u64 (phdr.filesz + 1))))
      ((s.heap.kcalloc (u64 (phdr.filesz + 1))).isSome ∧
        (phdr.offset < node.fileSize → phdr.filesz ≠ 0)) := by
  rw [loadInterp]
  generalize u64 (phdr.filesz + 1) = n
  generalize s.heap.granted n = size
  simp only
  cases hk : s.heap.kcalloc n with
  | none =>
    have hno : ¬(none : Option (Nat × Heap P)).isSome := Bool.false_ne_true
    exact Or.inr ⟨rfl, fun h => absurd h hno, fun h => hno h.1⟩
  | some r =>
    obtain ⟨path, heap⟩ := r
    have hpath : path ≠ 0 := Heap.kcalloc_ne_zero hk
    left
    simp only [if_neg hpath, hfd]
    let start : Loader P := { s with heap, copies := ⟨0, n, size⟩ :: s.copies }
    have hstart : Behind start a node := hb
    obtain ⟨⟨ret, bytes, t⟩, hr, hreads⟩ := readAt_reads hstart phdr.offset 0 phdr.filesz size
    have hinside := hreads.inside_iff
    have hret := hreads.ret_iff hl
    have hbehind : Behind t a node := hreads.behind
    have hfits : Inside node t ↔ Inside node s ∧ n ≤ size ∧
        ReadFits node phdr.offset 0 phdr.filesz size := by
      have hcleared : Inside node start ↔ Inside node s ∧ n ≤ size := inside_cleared rfl rfl
      rw [← and_assoc, ← hcleared]
      exact hinside
    rw [hr, Except.ok_bind]
    have hlast : ∀ t' : Loader P, t'.vfs = t.vfs → t'.copies = t.copies → ∃ go v,
        (if ret = 0#64 then
          (.ok (false, { t' with heap := (t'.heap.kfree path).1 }) : Except Trap (Bool × Loader P))
        else if call.wantsPath then .ok (true, { t' with ldPath := path })
        else .ok (true, t')) = .ok (go, v) ∧ Behind v a node ∧
        (Inside node v ↔ Inside node s ∧ n ≤ size ∧
          ReadFits node phdr.offset 0 phdr.filesz size) ∧
        (go = true ↔ ret ≠ 0#64) := by
      intro t' hvfs hcopies
      have hb' : Behind t' a node := by
        unfold Behind BehindAt
        rw [hvfs]
        exact hbehind
      have hfits' : Inside node t' ↔ Inside node s ∧ n ≤ size ∧
          ReadFits node phdr.offset 0 phdr.filesz size :=
        (inside_congr (congrArg Vfs.accesses hvfs) hcopies).trans hfits
      by_cases hzero : ret = 0#64
      · rw [if_pos hzero]
        exact ⟨_, _, rfl, hb', hfits', fun h => (Bool.false_ne_true h).elim, fun h => absurd hzero h⟩
      · rw [if_neg hzero]
        split
        next => exact ⟨_, _, rfl, hb', hfits', fun _ => hzero, fun _ => rfl⟩
        next => exact ⟨_, _, rfl, hb', hfits', fun _ => hzero, fun _ => rfl⟩
    have hsome : (some (path, heap)).isSome = true := rfl
    rw [forall_prop_of_true hsome, and_iff_right hsome, ← hret]
    cases bytes with
    | none => exact hlast t rfl rfl
    | some bytes => exact hlast _ rfl rfl

theorem loadPhdr_ends (hfd : call.fd = some a) (hb : Behind s a node)
    (hl : phdr.filesz < 2 ^ 64) :
    Ends a node s (loadPhdr call phdr s) (CaseInside node phdr s.heap) (Passes node phdr s.heap) := by
  rw [loadPhdr, CaseInside, Passes]
  by_cases hload : phdr.type = ptLoad
  · have hinterp : phdr.type ≠ ptInterp := by
      rw [hload]
      decide
    rw [if_pos hload]
    simp only [eq_true hload, eq_false hinterp, true_or, true_implies, false_implies, and_true,
      true_and]
    exact loadSegment_ends hfd hb hl
  · rw [if_neg hload]
    by_cases hinterp : phdr.type = ptInterp
    · have hphdr : phdr.type ≠ ptPhdr := by
        rw [hinterp]
        decide
      rw [if_neg hphdr, if_pos hinterp]
      simp only [eq_false hload, eq_true hinterp, or_true, true_implies, false_implies, true_and]
      exact loadInterp_ends hfd hb hl
    · simp only [hload, hinterp, or_self, false_implies, true_and, if_false]
      left
      split
      next => exact ⟨_, _, rfl, hb, ⟨fun h => ⟨h, trivial⟩, fun h => h.1⟩, fun _ => trivial, fun _ => rfl⟩
      next => exact ⟨_, _, rfl, hb, ⟨fun h => ⟨h, trivial⟩, fun h => h.1⟩, fun _ => trivial, fun _ => rfl⟩

/-- The program header of a turn. -/
theorem fetchPhdr_spec (hfd : call.fd = some a) (hb : Behind s a node) (header : Ehdr) (i : Nat) :
    ∃ ret t, fetchPhdr call header i s = .ok (ret, phdrSeen call node header i, t) ∧ ret ≠ 0#64 ∧
      Behind t a node ∧ t.heap = s.heap ∧
      (Inside node t ↔ Inside node s ∧ ReadFits node (phdrAt header i) 0 Phdr.size Phdr.size) := by
  obtain ⟨⟨ret, bytes, t⟩, hr, hreads⟩ := readAt_reads hb (phdrAt header i) 0 Phdr.size Phdr.size
  have hret := (hreads.ret_iff (by decide)).mpr fun _ => by decide
  have hphdr : Phdr.ofBytes (bytes.getD (call.phdrJunk i)) = phdrSeen call node header i :=
    congrArg Phdr.ofBytes (hreads.bytes _)
  refine ⟨ret, t, ?_, hret, hreads.behind, hreads.heap, hreads.inside_iff⟩
  rw [phdrAt] at hr
  rw [fetchPhdr, hfd, hr, ← hphdr]
  rfl

theorem fetchHeader_spec (hfd : call.fd = some a) (hb : BehindAt s a node 0) :
    ∃ ret t, fetchHeader call s = .ok (ret, headerSeen call node, t) ∧ ret ≠ 0#64 ∧
      Behind t a node ∧ (Inside node t ↔ Inside node s ∧ ReadFits node 0 0 Ehdr.size Ehdr.size) := by
  obtain ⟨⟨ret, bytes, t⟩, hr, hreads⟩ := readInto_reads hb 0 Ehdr.size Ehdr.size
  have hret := (hreads.ret_iff (by decide)).mpr fun _ => by decide
  have hheader : Ehdr.ofBytes (bytes.getD call.headerJunk) = headerSeen call node :=
    congrArg Ehdr.ofBytes (hreads.bytes _)
  refine ⟨ret, t, ?_, hret, hreads.behind, hreads.inside_iff⟩
  rw [fetchHeader, hfd, hr, ← hheader]
  rfl

theorem turn_eq {i : Nat} {ret : BitVec 64} (h : fetchPhdr call header i s = .ok (ret, phdr, t))
    (hret : ret ≠ 0#64) : turn call header i s = loadPhdr call phdr t := by
  rw [turn, h, Except.ok_bind]
  exact if_neg hret

end Elf

end UmbraOS
