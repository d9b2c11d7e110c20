import UmbraOS.VfsWrite

namespace UmbraOS

namespace Vfs

/-- The calls on the descriptors of one file. `answer` is what `new` returns if the write
calls it. -/
inductive FileOp
  | write (fd : Nat) (buffer : Nat → Byte) (length : BitVec 64) (answer : Option Memory)
  | read (fd : Nat) (length : BitVec 64)
  | seek (fd : Nat) (offset : BitVec 64) (mode : SeekMode)

def FileOp.fd : FileOp → Nat
  | write fd _ _ _ => fd
  | read fd _ => fd
  | seek fd _ _ => fd

def fileStep (s : Vfs) : FileOp → Except Trap Vfs
  | .write fd buffer length answer =>
    (s.write (some fd) buffer length.toNat answer).map Prod.snd
  | .read fd length => (s.read (some fd) length.toNat).map fun r => r.2.2
  | .seek fd offset mode => s.seek (some fd) offset.toNat mode

/-- The node `n` is a tidy file and the descriptors of `fds` are open on it for reading and
writing. -/
structure OpenFile (s : Vfs) (n : Nat) (fds : Nat → Prop) : Prop where
  node : ∃ node, s.nodes.cell n = some node ∧ Tidy node
  descriptors : ∀ a, fds a → ∃ d, s.descriptors.cell a = some d ∧ d.node = n ∧
    d.mode = .readWrite ∧ d.rwPosition < 2 ^ 64

/-- The write does to its file what it does to a sequence of bytes. -/
def WriteBehaves (s : Vfs) (a : Nat) (buffer : Nat → Byte) (length : BitVec 64)
    (answer : Option Memory) : Prop :=
  ∃ d old r t new, s.descriptors.cell a = some d ∧ s.nodes.cell d.node = some old ∧
    s.write (some a) buffer length.toNat answer = .ok (r, t) ∧
    t.nodes.cell d.node = some new ∧ Writes old new d.rwPosition buffer length.toNat

/-- The condition on a write in the state before it. -/
def WriteReady (s : Vfs) (a : Nat) (length : BitVec 64) (answered : Bool) : Prop :=
  ∀ d node, s.descriptors.cell a = some d → s.nodes.cell d.node = some node →
    WriteMeets node d.rwPosition length.toNat answered

def OpReady (s : Vfs) : FileOp → Prop
  | .write fd _ length answer => WriteReady s fd length answer.isSome
  | _ => True

/-- Each write of the run meets the condition. -/
def AllReady (s : Vfs) : List FileOp → Prop
  | [] => True
  | op :: ops => OpReady s op ∧ ∀ t, fileStep s op = .ok t → AllReady t ops

theorem write_go {s : Vfs} {a length : Nat} {buffer : Nat → Byte} {answer : Option Memory}
    {d : FileDescriptor} {node node' : Node} (hd : s.descriptors.cell a = some d)
    (hn : s.nodes.cell d.node = some node) (hmode : d.mode = .readWrite) (hfile : node.type = .file)
    (hroom : makeRoom node d.rwPosition length answer = .ok (true, node')) :
    ∃ t, s.write (some a) buffer length answer = .ok (BitVec.ofNat 64 length, t) ∧
      t.nodes = s.nodes.adjust d.node (fun _ => filled node' d.rwPosition buffer length) ∧
      t.descriptors = s.descriptors.adjust a
        (fun d => { d with rwPosition := u64 (d.rwPosition + length) }) := by
  have hguard : ¬(d.mode = .readOnly ∨ node.type = .directory) := by
    rw [hmode, hfile]
    simp
  unfold write
  simp only [CellStore.read_live hd, CellStore.read_live hn, Except.ok_bind, if_neg hguard, hroom,
    if_true]
  exact ⟨_, rfl, rfl, rfl⟩

theorem write_stop {s t : Vfs} {a length : Nat} {buffer : Nat → Byte} {answer : Option Memory}
    {d : FileDescriptor} {node new : Node} {r : BitVec 64} (hd : s.descriptors.cell a = some d)
    (hn : s.nodes.cell d.node = some node) (hmode : d.mode = .readWrite) (hfile : node.type = .file)
    (hw : s.write (some a) buffer length answer = .ok (r, t)) (hnew : t.nodes.cell d.node = some new) :
    (∃ node', makeRoom node d.rwPosition length answer = .ok (true, node') ∧
      new = filled node' d.rwPosition buffer length) ∨
    ∃ node', makeRoom node d.rwPosition length answer = .ok (false, node') ∧ new = node' := by
  obtain ⟨d', old, hd', hn', hends⟩ := write_ends hw
  cases hd.symm.trans hd'
  cases hn.symm.trans hn'
  cases hends with
  | refuses guard =>
    rw [hmode, hfile] at guard
    simp at guard
  | copies node' mode type room =>
    rw [CellStore.adjust_cell_self _ hn] at hnew
    exact Or.inl ⟨node', room, (Option.some.inj hnew).symm⟩
  | fails node' mode type room =>
    rw [CellStore.adjust_cell_self _ hn] at hnew
    exact Or.inr ⟨node', room, (Option.some.inj hnew).symm⟩

theorem OpenFile.move {s t : Vfs} {n : Nat} {fds : Nat → Prop} (h : OpenFile s n fds) (a : Nat)
    (p : FileDescriptor → Nat) (hp : ∀ d, p d < 2 ^ 64) (hn : t.nodes = s.nodes)
    (hd : t.descriptors = s.descriptors.adjust a fun d => { d with rwPosition := p d }) :
    OpenFile t n fds := by
  refine ⟨hn ▸ h.node, ?_⟩
  intro b hb
  obtain ⟨d, hcell, hnode, hmode, hpos⟩ := h.descriptors b hb
  rw [hd, CellStore.adjust_cell, hcell]
  by_cases hba : b = a
  · rw [if_pos hba]
    exact ⟨_, rfl, hnode, hmode, hp d⟩
  · rw [if_neg hba]
    exact ⟨d, rfl, hnode, hmode, hpos⟩

theorem OpenFile.read {s : Vfs} {n : Nat} {fds : Nat → Prop} (h : OpenFile s n fds) {a : Nat}
    (ha : fds a) (length : Nat) :
    ∃ r, s.read (some a) length = .ok r ∧ OpenFile r.2.2 n fds := by
  obtain ⟨d, hd, rfl, hmode, hpos⟩ := h.descriptors a ha
  obtain ⟨node, hn, ht⟩ := h.node
  unfold Vfs.read
  simp only [CellStore.read_live hd, CellStore.read_live hn, Except.ok_bind]
  split
  next => exact ⟨_, rfl, h⟩
  next =>
    let s' := (s.tmpfsRead node d.rwPosition length).2
    have hmoved : OpenFile (if some a = s'.stdin then s' else s'.advance a length) d.node fds := by
      by_cases hstdin : some a = s'.stdin
      · rw [if_pos hstdin]
        exact ⟨h.node, h.descriptors⟩
      · rw [if_neg hstdin]
        exact h.move a (fun d => u64 (d.rwPosition + length)) (fun _ => u64_lt _) rfl rfl
    exact ⟨_, rfl, hmoved⟩

theorem OpenFile.seek {s : Vfs} {n : Nat} {fds : Nat → Prop} (h : OpenFile s n fds) {a : Nat}
    (ha : fds a) (offset : BitVec 64) (mode : SeekMode) :
    ∃ t, s.seek (some a) offset.toNat mode = .ok t ∧ OpenFile t n fds := by
  obtain ⟨d, hd, rfl, _, _⟩ := h.descriptors a ha
  obtain ⟨node, hn, _⟩ := h.node
  unfold Vfs.seek
  simp only [CellStore.read_live hd, Except.ok_bind]
  cases mode with
  | set => exact ⟨_, rfl, h.move a (fun _ => offset.toNat) (fun _ => offset.isLt) rfl rfl⟩
  | current =>
    exact ⟨_, rfl, h.move a (fun d => u64 (d.rwPosition + offset.toNat)) (fun _ => u64_lt _) rfl rfl⟩
  | «end» =>
    simp only [CellStore.read_live hn, Except.ok_bind]
    exact ⟨_, rfl, h.move a (fun _ => u64 (node.fileSize + offset.toNat)) (fun _ => u64_lt _) rfl rfl⟩

theorem OpenFile.write {s : Vfs} {n : Nat} {fds : Nat → Prop} (h : OpenFile s n fds) {a : Nat}
    (ha : fds a) (buffer : Nat → Byte) {length : BitVec 64} {answer : Option Memory}
    (hready : WriteReady s a length answer.isSome) :
    WriteBehaves s a buffer length answer ∧
    ∃ r t, s.write (some a) buffer length.toNat answer = .ok (r, t) ∧ OpenFile t n fds := by
  obtain ⟨d, hd, rfl, hmode, hpos⟩ := h.descriptors a ha
  obtain ⟨node, hn, ht⟩ := h.node
  have hmeets := hready d node hd hn
  obtain ⟨node', hroom, hw, ht'⟩ := hmeets.writes ht hpos length.isLt buffer
  obtain ⟨t, hwrite, hnodes, hdescs⟩ := write_go hd hn hmode ht.file hroom
  have hnew : t.nodes.cell d.node = some (filled node' d.rwPosition buffer length.toNat) := by
    rw [hnodes, CellStore.adjust_cell_self _ hn]
  refine ⟨⟨d, node, _, t, _, hd, hn, hwrite, hnew, hw⟩, _, t, hwrite, ?_⟩
  have hopen : OpenFile { s with nodes := t.nodes } d.node fds := ⟨⟨_, hnew, ht'⟩, h.descriptors⟩
  exact hopen.move a (fun d => u64 (d.rwPosition + length.toNat)) (fun _ => u64_lt _) rfl hdescs

theorem OpenFile.writeReady {s : Vfs} {n : Nat} {fds : Nat → Prop} (h : OpenFile s n fds) {a : Nat}
    (ha : fds a) (buffer : Nat → Byte) {length : BitVec 64} {answered : Bool}
    (hb : ∀ answer : Option Memory, answer.isSome = answered → WriteBehaves s a buffer length answer) :
    WriteReady s a length answered := by
  obtain ⟨d, hd, rfl, hmode, hpos⟩ := h.descriptors a ha
  obtain ⟨node, hn, ht⟩ := h.node
  intro d' old hd' hold
  rw [hd] at hd'
  cases hd'
  rw [hn] at hold
  cases hold
  refine writeMeets_of_writes ht hpos length.isLt buffer fun answer hans => ?_
  obtain ⟨d', old, r, t, new, hd', hold, hwrite, hnew, hw⟩ := hb answer hans
  rw [hd] at hd'
  cases hd'
  rw [hn] at hold
  cases hold
  rcases write_stop hd hn hmode ht.file hwrite hnew with ⟨node', hroom, rfl⟩ | ⟨node', hroom, rfl⟩
  · exact ⟨node', hroom, hw⟩
  · -- a growth that fails drops the buffer and keeps the old size
    obtain ⟨_, hlt, hgrow, rfl, _⟩ := makeRoom_fails hroom
    obtain ⟨hbytes, _, hsize⟩ := hw
    exfalso
    by_cases hl : length.toNat = 0
    · have hzero : node.capacity = 0 := by
        rw [hl, Nat.add_zero, u64_of_lt hpos] at hlt
        have hmax : node.fileSize = max node.fileSize (d.rwPosition + length.toNat) := hsize
        rcases ht.filled with hle | hz
        · omega
        · exact hz
      obtain ⟨k, hk⟩ := (growLoop_of_doubling ht.capacity (by omega)).mp hgrow
      rw [hzero, Nat.zero_mul] at hk
      have hz : u64 0 = 0 := rfl
      omega
    · have hfirst := hbytes 0 (by omega)
      cases hfirst

theorem OpenFile.step {s : Vfs} {n : Nat} {fds : Nat → Prop} (h : OpenFile s n fds) {op : FileOp}
    (hop : fds op.fd) (hready : OpReady s op) : ∃ t, fileStep s op = .ok t ∧ OpenFile t n fds := by
  cases op with
  | write a buffer length answer =>
    obtain ⟨_, r, t, hw, ht⟩ := h.write hop buffer hready
    exact ⟨t, congrArg (Except.map Prod.snd) hw, ht⟩
  | read a length =>
    obtain ⟨r, hr, ht⟩ := h.read hop length.toNat
    have hr' : s.read (some a) length.toNat = .ok r := hr
    refine ⟨r.2.2, ?_, ht⟩
    simp only [fileStep, hr']
    rfl
  | seek a offset mode => exact h.seek hop offset mode

theorem OpenFile.run {s : Vfs} {n : Nat} {fds : Nat → Prop} (h : OpenFile s n fds)
    {ops : List FileOp} (hops : ∀ op ∈ ops, fds op.fd) (hready : AllReady s ops) :
    ∃ t, run fileStep s ops = .ok t ∧ OpenFile t n fds := by
  induction ops generalizing s with
  | nil => exact ⟨s, rfl, h⟩
  | cons op ops ih =>
    obtain ⟨hop, hrest⟩ := hready
    obtain ⟨t, ht, hopen⟩ := h.step (hops op (by simp)) hop
    obtain ⟨u, hu, hfinal⟩ := ih hopen (fun o ho => hops o (by simp [ho])) (hrest t ht)
    exact ⟨u, run_cons_ok.mpr ⟨t, ht, hu⟩, hfinal⟩

/-- After any calls on the descriptors of a file whose writes met the condition, a write does
to the file what it does to a sequence of bytes, whatever memory `new` returns, exactly when
it meets the condition. -/
theorem write_behaves_iff {s : Vfs} {n : Nat} {fds : Nat → Prop} (h : OpenFile s n fds)
    {ops : List FileOp} (hops : ∀ op ∈ ops, fds op.fd) (hready : AllReady s ops) :
    ∃ t, run fileStep s ops = .ok t ∧ ∀ a, fds a → ∀ buffer length answered,
      ((∀ answer : Option Memory, answer.isSome = answered →
        WriteBehaves t a buffer length answer) ↔ WriteReady t a length answered) := by
  obtain ⟨t, ht, hopen⟩ := h.run hops hready
  refine ⟨t, ht, fun a ha buffer length answered => ⟨hopen.writeReady ha buffer, ?_⟩⟩
  intro hr answer hans
  exact (hopen.write ha buffer (hans ▸ hr)).1

/-- A new file, and one descriptor on it. -/
def emptyFile : Vfs :=
  { new with
    nodes := CellStore.empty.alloc ⟨[], .file, none, none, .null, 0, 0, 0⟩
    descriptors := CellStore.empty.alloc ⟨0, .readWrite, 0⟩ }

theorem emptyFile_open : OpenFile emptyFile 0 fun a => a = 0 := by
  refine ⟨⟨_, rfl, rfl, by decide, by decide, le_refl _, Or.inl (le_refl _)⟩, ?_⟩
  rintro a rfl
  exact ⟨_, rfl, rfl, rfl, by decide⟩

theorem emptyFile_behaves_iff :
    ∃ t, run fileStep emptyFile [.write 0 (fun _ => 1#8) 1#64 (some fun _ => 0#8)] = .ok t ∧
      ∀ a, a = 0 → ∀ buffer length answered, ((∀ answer : Option Memory, answer.isSome = answered →
        WriteBehaves t a buffer length answer) ↔ WriteReady t a length answered) := by
  refine write_behaves_iff emptyFile_open (by simp [FileOp.fd]) ⟨?_, fun _ _ => trivial⟩
  intro d node hd hn
  cases hd
  cases hn
  exact Or.inl ⟨rfl, Or.inl ⟨rfl, rfl⟩⟩

/-- The second of two writes makes the buffer grow and loses the byte of the first. -/
theorem second_write_loses_byte :
    ∃ t, run fileStep emptyFile [.write 0 (fun _ => 1#8) 1#64 (some fun _ => 0#8)] = .ok t ∧
      ¬WriteBehaves t 0 (fun _ => 2#8) 1#64 (some fun _ => 0#8) := by
  refine ⟨_, rfl, ?_⟩
  rintro ⟨d, old, r, t, new, hd, hold, hw, hnew, _, hkeep, _⟩
  cases hd
  cases hold
  cases hw
  cases hnew
  have h0 := hkeep 0 (by decide) (by decide)
  cases h0

end Vfs

end UmbraOS
