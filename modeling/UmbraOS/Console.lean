import UmbraOS.VfsGrowth

namespace UmbraOS

namespace Vfs

/-- `Tty::write` puts the bytes on the screen and leaves `file_data` as it is. -/
def ttyWrite (s : Vfs) (node : Node) (_buffer : Nat → Byte) (_offset length : Nat) : Nat × Node × Vfs :=
  if node.type ≠ .file then (0, node, s) else (length, node, s)

/-- `Vfs::write` on a node of a file system that writes by `fsWrite`. -/
def writeVia (fsWrite : Vfs → Node → (Nat → Byte) → Nat → Nat → Nat × Node × Vfs) (s : Vfs) (fd : Option Nat)
    (buffer : Nat → Byte) (length : Nat) (answer : Option Memory) : Except Trap (BitVec 64 × Vfs) :=
  match fd with
  | none => .ok (0, s)
  | some a => do
    let d ← s.descriptors.read (some a)
    let node ← s.nodes.read (some d.node)
    if d.mode = .readOnly ∨ node.type = .directory then return (0, s)
    else
      let (go, node) ← makeRoom node d.rwPosition length answer
      if go then
        let (bytesWritten, node, s) := fsWrite s node buffer d.rwPosition length
        let fileSize := if u64 (d.rwPosition + length) > node.fileSize then
          u64 (d.rwPosition + length) else node.fileSize
        let s := { s with nodes := s.nodes.adjust d.node fun _ => { node with fileSize } }
        return (BitVec.ofNat 64 bytesWritten, s.advance a length)
      else return (-1, { s with nodes := s.nodes.adjust d.node fun _ => node })

/-- The constructor of a descriptor with a node of its own, whose name, type and inode it does not set:
they are what `junk` has. A type that is neither of the two of the enumeration is not represented. -/
def newDescriptor (s : Vfs) (junk : Node) (mode : OpenMode) (size : Nat) (answer : Option Memory) : Nat × Vfs :=
  let node := { junk with
    parent := none, children := none, fileData := FileData.ofNew size answer, fileSize := size, capacity := size }
  (s.descriptors.next, { s with
    nodes := s.nodes.alloc node, descriptors := s.descriptors.alloc ⟨s.nodes.next, mode, 0⟩ })

/-- The descriptors `stdout` and `stderr`, and the state with all three. -/
def initStd (junk : Nat → Node) (answers : Nat → Option Memory) (s : Vfs) : Nat × Nat × Vfs :=
  let (stdin, s) := s.newDescriptor (junk 0) .readOnly 4096 (answers 0)
  let (stdout, s) := s.newDescriptor (junk 1) .writeOnly 0 (answers 1)
  let (stderr, s) := s.newDescriptor (junk 2) .writeOnly 0 (answers 2)
  (stdout, stderr, { s with stdin := some stdin })

/-- What belongs to one of the two descriptors. -/
def ofStd (stdout stderr : Nat) (onStderr : Bool) : Nat := if onStderr then stderr else stdout

/-- A write on `stderr` or `stdout`. -/
structure ConsoleWrite where
  onStderr : Bool
  buffer : Nat → Byte
  length : BitVec 64
  answer : Option Memory

def consoleStep (fd : Bool → Nat) (s : Vfs) (w : ConsoleWrite) : Except Trap Vfs :=
  (s.writeVia ttyWrite (some (fd w.onStderr)) w.buffer w.length.toNat w.answer).map Prod.snd

/-- The number of bytes that writes are given. -/
def written (writes : List ConsoleWrite) : Nat := (writes.map fun w => w.length.toNat).sum

/-- No capacity and no block of the node of a descriptor is larger than `bound`. -/
def Within (s : Vfs) (a bound : Nat) : Prop := ∀ d node, s.descriptors.cell a = some d →
  s.nodes.cell d.node = some node → node.capacity ≤ bound ∧ node.fileData.allocated ≤ bound

/-- However writes of at most `total` bytes go to the descriptors that `init_std` makes, they keep both
nodes within `bound`. -/
def Bounded (junk : Nat → Node) (answers : Nat → Option Memory) (s : Vfs) (bound total : Nat) : Prop :=
  ∀ stdout stderr s₀, initStd junk answers s = (stdout, stderr, s₀) →
    ∀ writes t, written writes ≤ total →
      run (consoleStep (ofStd stdout stderr)) s₀ writes = .ok t →
      Within t stdout bound ∧ Within t stderr bound

theorem ofStd_injective {stdout stderr : Nat} (h : stdout ≠ stderr) : Function.Injective (ofStd stdout stderr) := by
  intro e e' he
  cases e with
  | false =>
    cases e' with
    | false => rfl
    | true => exact absurd he h
  | true =>
    cases e' with
    | false => exact absurd he.symm h
    | true => rfl

theorem writeVia_tmpfs : writeVia (fun s node buffer offset length =>
    (length, s.tmpfsWrite node buffer offset length)) = write := rfl

theorem growLoop_bound {needed capacity result : Nat} (fuel : Nat) (hn : needed ≤ 2 ^ 63) (hlt : capacity < needed)
    (h : growLoop needed fuel capacity = some result) : result ≤ 2 * (needed - 1) := by
  refine (growLoop_keeps (P := fun c => c ≤ 2 * (needed - 1)) fuel (fun c _ hc => ?_) (by omega) h).2
  rw [u64_of_lt (by omega)]
  omega

/-- What a node has reserved after at most `total` bytes, the last of them in front of `position`. -/
structure Held (node : Node) (position total : Nat) : Prop where
  position : position ≤ total
  capacity : node.capacity ≤ max total (2 * (total - 1))
  allocated : node.fileData.allocated ≤ node.capacity

theorem Held.mono {node : Node} {position total total' : Nat} (h : Held node position total)
    (hle : total ≤ total') : Held node position total' := by
  have hposition := h.position
  have hcapacity := h.capacity
  exact ⟨by omega, by omega, h.allocated⟩

/-- The buffer of a write of `length` bytes more. -/
theorem Held.makeRoom {node new : Node} {position total length : Nat} {answer : Option Memory} {go : Bool}
    (h : Held node position total) (hsmall : total + length ≤ 2 ^ 63)
    (hroom : Vfs.makeRoom node position length answer = .ok (go, new)) :
    new.capacity ≤ max (total + length) (2 * (total + length - 1)) ∧ new.fileData.allocated ≤ new.capacity := by
  have hposition := h.position
  have hcapacity := h.capacity
  have hkeep : node.capacity ≤ max (total + length) (2 * (total + length - 1)) := by omega
  by_cases hz : node.fileSize = 0
  · rw [makeRoom_first answer hz] at hroom
    cases hroom
    refine ⟨?_, ?_⟩
    · show length ≤ _
      omega
    · cases answer with
      | none => exact Nat.zero_le _
      | some junk => exact le_refl _
  · by_cases hfit : u64 (position + length) ≤ node.capacity
    · rw [makeRoom_fits answer hz hfit] at hroom
      cases hroom
      exact ⟨hkeep, h.allocated⟩
    · cases go with
      | false =>
        obtain ⟨-, -, -, rfl, -⟩ := makeRoom_fails hroom
        exact ⟨hkeep, Nat.zero_le _⟩
      | true =>
        have hlt : node.capacity < u64 (position + length) := by omega
        obtain ⟨junk, capacity, -, hg, rfl⟩ := makeRoom_grown hz hlt hroom
        rw [u64_of_lt (by omega)] at hg hlt
        have hbound := growLoop_bound 64 (by omega) hlt hg
        refine ⟨?_, le_refl _⟩
        show capacity ≤ _
        omega

/-- The node after a write that ends at `position`; no byte is copied. -/
def sized (node : Node) (position : Nat) : Node :=
  { node with fileSize := if u64 position > node.fileSize then u64 position else node.fileSize }

section Step

variable {s : Vfs} {a : Nat} {d : FileDescriptor} {node : Node}

theorem writeVia_file (hd : s.descriptors.cell a = some d) (hn : s.nodes.cell d.node = some node)
    (hmode : d.mode = .writeOnly) (htype : node.type = .file) (buffer : Nat → Byte) (length : Nat)
    (answer : Option Memory) : (s.writeVia ttyWrite (some a) buffer length answer).map Prod.snd =
      (makeRoom node d.rwPosition length answer).map fun r =>
        if r.1 then
          { s with
            nodes := s.nodes.adjust d.node fun _ => sized r.2 (d.rwPosition + length)
            descriptors := s.descriptors.adjust a fun d => { d with rwPosition := u64 (d.rwPosition + length) } }
        else { s with nodes := s.nodes.adjust d.node fun _ => r.2 } := by
  have hguard : ¬(d.mode = .readOnly ∨ node.type = .directory) := by
    rw [hmode, htype]
    decide
  unfold writeVia
  simp only [CellStore.read_live hd, CellStore.read_live hn, Except.ok_bind]
  rw [if_neg hguard]
  cases makeRoom node d.rwPosition length answer with
  | error trap => rfl
  | ok r =>
    obtain ⟨go, new⟩ := r
    cases go with
    | false => rfl
    | true =>
      have hnode : ∀ old, (ttyWrite s old buffer d.rwPosition length).2 = (old, s) := by
        intro old
        unfold ttyWrite
        split
        next => rfl
        next => rfl
      simp only [Except.ok_bind, if_true]
      have hpair := hnode new
      cases hwrite : ttyWrite s new buffer d.rwPosition length with
      | mk count rest =>
        rw [hwrite] at hpair
        cases hpair
        rfl

theorem writeVia_directory (hd : s.descriptors.cell a = some d) (hn : s.nodes.cell d.node = some node)
    (htype : node.type = .directory) (buffer : Nat → Byte) (length : Nat) (answer : Option Memory) :
    s.writeVia ttyWrite (some a) buffer length answer = .ok (0, s) := by
  unfold writeVia
  simp only [CellStore.read_live hd, CellStore.read_live hn, Except.ok_bind]
  rw [if_pos (Or.inr htype)]
  rfl

end Step

/-- The descriptor at `a` writes to the node at `n`, which has the type and the sizes given. -/
def Standard (P : FileDescriptor → Node → Prop) (s : Vfs) (a n : Nat) (type : NodeType) : Prop :=
  ∃ d node, s.descriptors.cell a = some d ∧ s.nodes.cell n = some node ∧ d.node = n ∧
    d.mode = .writeOnly ∧ node.type = type ∧ P d node

theorem Standard.mono {P Q : FileDescriptor → Node → Prop} {s : Vfs} {a n : Nat} {type : NodeType}
    (h : Standard P s a n type) (hpq : ∀ d node, P d node → Q d node) : Standard Q s a n type := by
  obtain ⟨d, node, hd, hn, hnode, hmode, htype, hp⟩ := h
  exact ⟨d, node, hd, hn, hnode, hmode, htype, hpq d node hp⟩

theorem Standard.within {P : FileDescriptor → Node → Prop} {s : Vfs} {a n bound : Nat} {type : NodeType}
    (h : Standard P s a n type)
    (hp : ∀ d node, P d node → node.capacity ≤ bound ∧ node.fileData.allocated ≤ bound) : Within s a bound := by
  obtain ⟨d, node, hd, hn, hnode, -, -, hnodes⟩ := h
  intro d' node' hd' hn'
  cases hd.symm.trans hd'
  rw [hnode] at hn'
  cases hn.symm.trans hn'
  exact hp d node hnodes

/-- A descriptor at the start of a node without bytes. -/
def Fresh (d : FileDescriptor) (node : Node) : Prop :=
  d.rwPosition = 0 ∧ node.fileSize = 0 ∧ node.capacity = 0 ∧ node.fileData.allocated = 0

theorem makeRoom_type {node new : Node} {position length : Nat} {answer : Option Memory} {go : Bool}
    (h : makeRoom node position length answer = .ok (go, new)) : new.type = node.type := by
  unfold makeRoom at h
  split at h
  next =>
    cases h
    rfl
  next =>
    split at h
    next =>
      split at h
      next => cases h
      next =>
        split at h
        next =>
          cases h
          rfl
        next =>
          cases h
          rfl
    next =>
      cases h
      rfl

section Runs

variable {fd n : Bool → Nat} {type : Bool → NodeType} {s t : Vfs} {w : ConsoleWrite}

/-- A write keeps what each descriptor has reserved in proportion to the bytes written. -/
theorem consoleStep_held {total : Nat} (hfd : Function.Injective fd) (hnodes : Function.Injective n)
    (hs : ∀ e, Standard (fun d node => Held node d.rwPosition total) s (fd e) (n e) (type e))
    (hsmall : total + w.length.toNat ≤ 2 ^ 63) (h : consoleStep fd s w = .ok t) :
    ∀ e, Standard (fun d node => Held node d.rwPosition (total + w.length.toNat)) t (fd e) (n e) (type e) := by
  have hmono : ∀ e, Standard (fun d node => Held node d.rwPosition (total + w.length.toNat)) s
      (fd e) (n e) (type e) := by
    intro e
    obtain ⟨d, node, hd, hn, hnode, hmode, htype, hheld⟩ := hs e
    exact ⟨d, node, hd, hn, hnode, hmode, htype, hheld.mono (Nat.le_add_right _ _)⟩
  obtain ⟨d, node, hd, hn, hnode, hmode, htype, hheld⟩ := hs w.onStderr
  rw [← hnode] at hn
  unfold consoleStep at h
  cases hkind : node.type with
  | directory =>
    rw [writeVia_directory hd hn hkind] at h
    cases h
    exact hmono
  | file =>
    rw [writeVia_file hd hn hmode hkind] at h
    obtain ⟨⟨go, new⟩, hroom, rfl⟩ := Except.map_eq_ok.mp h
    obtain ⟨hcapacity, hallocated⟩ := hheld.makeRoom hsmall hroom
    have hnew : new.type = type w.onStderr := (makeRoom_type hroom).trans htype
    intro e
    by_cases he : e = w.onStderr
    · subst he
      cases go with
      | true =>
        have hposition : u64 (d.rwPosition + w.length.toNat) ≤ total + w.length.toNat := by
          have := hheld.position
          rw [u64_of_lt (by omega)]
          omega
        refine ⟨{ d with rwPosition := u64 (d.rwPosition + w.length.toNat) },
          sized new (d.rwPosition + w.length.toNat), CellStore.adjust_cell_self _ hd, ?_, hnode, hmode, hnew,
          hposition, hcapacity, hallocated⟩
        rw [← hnode]
        exact CellStore.adjust_cell_self _ hn
      | false =>
        refine ⟨d, new, hd, ?_, hnode, hmode, hnew, ?_, hcapacity, hallocated⟩
        · rw [← hnode]
          exact CellStore.adjust_cell_self _ hn
        · exact hheld.position.trans (Nat.le_add_right _ _)
    · -- the other descriptor, and its node, are as they were
      have hother : fd e ≠ fd w.onStderr := fun hsame => he (hfd hsame)
      have hothernode : n e ≠ d.node := fun hsame => he (hnodes (hsame.trans hnode))
      obtain ⟨d', node', hd', hn', hrest⟩ := hmono e
      refine ⟨d', node', ?_, ?_, hrest⟩
      · cases go with
        | true => exact (CellStore.adjust_cell_ne _ _ hother).trans hd'
        | false => exact hd'
      · cases go with
        | true => exact (CellStore.adjust_cell_ne _ _ hothernode).trans hn'
        | false => exact (CellStore.adjust_cell_ne _ _ hothernode).trans hn'

theorem run_held {total : Nat} {writes : List ConsoleWrite} (hfd : Function.Injective fd)
    (hnodes : Function.Injective n)
    (hs : ∀ e, Standard (fun d node => Held node d.rwPosition total) s (fd e) (n e) (type e))
    (hsmall : total + written writes ≤ 2 ^ 63) (h : run (consoleStep fd) s writes = .ok t) :
    ∀ e, Standard (fun d node => Held node d.rwPosition (total + written writes)) t (fd e) (n e) (type e) := by
  induction writes generalizing s total with
  | nil =>
    cases h
    exact hs
  | cons w writes ih =>
    have hsum : total + written (w :: writes) = total + w.length.toNat + written writes := by
      unfold written
      rw [List.map_cons, List.sum_cons, Nat.add_assoc]
    rw [hsum] at hsmall ⊢
    obtain ⟨u, hu, h⟩ := run_cons_ok.mp h
    exact ih (consoleStep_held hfd hnodes hs (by omega) hu) hsmall h

/-- Writes on directories, as the nodes are if their types read so, change nothing. -/
theorem run_directory {writes : List ConsoleWrite}
    (hs : ∀ e, Standard (fun _ _ => True) s (fd e) (n e) .directory) (h : run (consoleStep fd) s writes = .ok t) :
    t = s := by
  induction writes generalizing s with
  | nil =>
    cases h
    rfl
  | cons w writes ih =>
    obtain ⟨u, hu, h⟩ := run_cons_ok.mp h
    obtain ⟨d, node, hd, hn, hnode, -, htype, -⟩ := hs w.onStderr
    rw [← hnode] at hn
    unfold consoleStep at hu
    rw [writeVia_directory hd hn htype] at hu
    cases hu
    exact ih hs h

/-- Where the buffer has room, the position goes on and the size follows. -/
theorem consoleStep_goes {e : Bool} {d : FileDescriptor} {node new : Node} {length : BitVec 64}
    {answer : Option Memory}
    (hd : s.descriptors.cell (fd e) = some d) (hn : s.nodes.cell d.node = some node)
    (hmode : d.mode = .writeOnly) (htype : node.type = .file)
    (hroom : makeRoom node d.rwPosition length.toNat answer = .ok (true, new)) (buffer : Nat → Byte) :
    ∃ u, consoleStep fd s ⟨e, buffer, length, answer⟩ = .ok u ∧ Standard (fun d' node' =>
      d'.rwPosition = u64 (d.rwPosition + length.toNat) ∧ node' = sized new (d.rwPosition + length.toNat))
        u (fd e) d.node .file := by
  refine ⟨{ s with
    nodes := s.nodes.adjust d.node fun _ => sized new (d.rwPosition + length.toNat)
    descriptors := s.descriptors.adjust (fd e) fun d =>
      { d with rwPosition := u64 (d.rwPosition + length.toNat) } }, ?_, _, _, CellStore.adjust_cell_self _ hd,
    CellStore.adjust_cell_self _ hn, rfl, hmode, (makeRoom_type hroom).trans htype, rfl, rfl⟩
  unfold consoleStep
  simp only
  rw [writeVia_file hd hn hmode htype, hroom]
  rfl

/-- The first write to a file reserves what it writes. -/
theorem first_write {e : Bool} {total : Nat}
    (hs : Standard (fun d node => d.rwPosition = 0 ∧ node.fileSize = 0) s (fd e) (n e) .file)
    (htotal : total < 2 ^ 64) : ∃ u, consoleStep fd s ⟨e, fun _ => 0#8, BitVec.ofNat 64 total, some fun _ => 0#8⟩ =
      .ok u ∧ Standard (fun d node => d.rwPosition = total ∧ node.fileSize = total ∧ node.capacity = total)
        u (fd e) (n e) .file := by
  obtain ⟨d, node, hd, hn, hnode, hmode, htype, hposition, hz⟩ := hs
  rw [← hnode] at hn ⊢
  have hlength : (BitVec.ofNat 64 total).toNat = total := by
    rw [BitVec.toNat_ofNat, Nat.mod_eq_of_lt htotal]
  have hend : u64 (d.rwPosition + (BitVec.ofNat 64 total).toNat) = total := by
    rw [hlength, hposition, Nat.zero_add, u64_of_lt htotal]
  obtain ⟨u, hu, hlast⟩ := consoleStep_goes hd hn hmode htype (makeRoom_first (some fun _ => 0#8) hz) fun _ => 0#8
  refine ⟨u, hu, hlast.mono fun d' node' hp => ?_⟩
  obtain ⟨hposition', rfl⟩ := hp
  refine ⟨hposition'.trans hend, ?_, hlength⟩
  show (if u64 (d.rwPosition + (BitVec.ofNat 64 total).toNat) > (BitVec.ofNat 64 total).toNat then
    u64 (d.rwPosition + (BitVec.ofNat 64 total).toNat) else (BitVec.ofNat 64 total).toNat) = total
  rw [hend, hlength, ite_self]

/-- One byte more than fits doubles it. -/
theorem next_write {e : Bool} {total : Nat}
    (hs : Standard (fun d node => d.rwPosition = total ∧ node.fileSize = total ∧ node.capacity = total)
      s (fd e) (n e) .file)
    (hpos : 0 < total) (htotal : total * 2 < 2 ^ 64) :
    ∃ u, consoleStep fd s ⟨e, fun _ => 0#8, 1#64, some fun _ => 0#8⟩ = .ok u ∧
      Standard (fun _ node => node.capacity = total * 2) u (fd e) (n e) .file := by
  obtain ⟨d, node, hd, hn, hnode, hmode, htype, hposition, hsize, hcapacity⟩ := hs
  rw [← hnode] at hn ⊢
  have hneeded : u64 (d.rwPosition + (1#64).toNat) = total + 1 := by
    rw [hposition]
    exact u64_of_lt (show total + 1 < 2 ^ 64 by omega)
  have hgrow : growLoop (u64 (d.rwPosition + (1#64).toNat)) 64 node.capacity = some (total * 2) := by
    rw [hneeded, hcapacity, growLoop_double 63 (by omega), u64_of_lt htotal, growLoop_le 63 (by omega)]
  have hroom := makeRoom_grows (fun _ => 0#8) (by omega) (by omega) hgrow
  obtain ⟨u, hu, hlast⟩ := consoleStep_goes hd hn hmode htype hroom fun _ => 0#8
  refine ⟨u, hu, hlast.mono fun d' node' hp => ?_⟩
  rw [hp.2]
  rfl

/-- Where twice a total of bytes passes a bound, some writes of that total make the node pass it. -/
theorem exists_passing {e : Bool} {bound total : Nat}
    (hs : Standard (fun d node => d.rwPosition = 0 ∧ node.fileSize = 0) s (fd e) (n e) .file)
    (hbound : bound + 2 < 2 ^ 64) (hlarge : ¬(total ≤ bound ∧ 2 * (total - 1) ≤ bound)) :
    ∃ writes t, written writes ≤ total ∧ run (consoleStep fd) s writes = .ok t ∧
      ∃ capacity, bound < capacity ∧ Standard (fun _ node => node.capacity = capacity) t (fd e) (n e) .file := by
  by_cases htotal : total ≤ bound
  · -- half of what is more than the bound, and then one byte
    have hhalf : ¬2 * (total - 1) ≤ bound := fun hle => hlarge ⟨htotal, hle⟩
    have hhalfbound : bound / 2 + 1 < 2 ^ 64 := by omega
    obtain ⟨u, hu, hfirst⟩ := first_write hs hhalfbound
    obtain ⟨t, ht, hnext⟩ := next_write hfirst (by omega) (by omega)
    refine ⟨_, t, ?_, run_cons_ok.mpr ⟨u, hu, run_cons_ok.mpr ⟨t, ht, run_nil t⟩⟩, _, ?_, hnext⟩
    · show (BitVec.ofNat 64 (bound / 2 + 1)).toNat + (1 + 0) ≤ total
      rw [BitVec.toNat_ofNat, Nat.mod_eq_of_lt (by omega)]
      omega
    · omega
  · have hboundlt : bound + 1 < 2 ^ 64 := by omega
    obtain ⟨t, ht, hfirst⟩ := first_write hs hboundlt
    refine ⟨_, t, ?_, run_cons_ok.mpr ⟨t, ht, run_nil t⟩, bound + 1, Nat.lt_succ_self _,
      hfirst.mono fun d node hp => hp.2.2⟩
    show (BitVec.ofNat 64 (bound + 1)).toNat + 0 ≤ total
    rw [BitVec.toNat_ofNat, Nat.mod_eq_of_lt (by omega)]
    omega

/-- Writes on fresh nodes stay within a bound, where they are directories or even a doubled buffer is in
it. -/
theorem run_within {bound : Nat} {writes : List ConsoleWrite} (hfd : Function.Injective fd)
    (hnodes : Function.Injective n) (hs : ∀ e, Standard Fresh s (fd e) (n e) (type e)) (hbound : bound + 2 < 2 ^ 64)
    (hfits : (∀ e, type e = .directory) ∨ written writes ≤ bound ∧ 2 * (written writes - 1) ≤ bound)
    (h : run (consoleStep fd) s writes = .ok t) (e : Bool) : Within t (fd e) bound := by
  rcases hfits with hdirectory | ⟨htotal, hhalf⟩
  · have hnone : ∀ e, Standard (fun _ _ => True) s (fd e) (n e) .directory := by
      intro e
      rw [← hdirectory e]
      exact (hs e).mono fun _ _ _ => trivial
    rw [run_directory hnone h]
    refine (hs e).within fun d node hp => ?_
    obtain ⟨-, -, hcapacity, hallocated⟩ := hp
    omega
  · have hzero : ∀ e, Standard (fun d node => Held node d.rwPosition 0) s (fd e) (n e) (type e) := by
      intro e
      refine (hs e).mono fun d node hp => ?_
      obtain ⟨hposition, -, hcapacity, hallocated⟩ := hp
      exact ⟨by omega, by omega, by omega⟩
    have hheld := run_held hfd hnodes hzero (by omega) h
    refine (hheld e).within fun d node hp => ?_
    have hcapacity := hp.capacity
    have hallocated := hp.allocated
    omega

end Runs

/-- The descriptors are at the start of nodes without bytes. -/
theorem initStd_standard (junk : Nat → Node) (answers : Nat → Option Memory) (s : Vfs)
    {stdout stderr : Nat} {s₀ : Vfs} (h : initStd junk answers s = (stdout, stderr, s₀)) :
    stdout ≠ stderr ∧ ∀ e : Bool, Standard Fresh s₀ (ofStd stdout stderr e)
      (ofStd (s.nodes.next + 1) (s.nodes.next + 2) e) (junk (ofStd 1 2 e)).type := by
  have hblock : ∀ answer, (FileData.ofNew 0 answer).allocated = 0 := by
    intro answer
    cases answer with
    | none => rfl
    | some bytes => rfl
  cases h
  refine ⟨Nat.ne_of_lt (Nat.lt_succ_self _), fun e => ?_⟩
  cases e with
  | false =>
    exact ⟨_, _, CellStore.alloc_cell_of_live _ (CellStore.alloc_cell_self _ _),
      CellStore.alloc_cell_of_live _ (CellStore.alloc_cell_self _ _), rfl, rfl, rfl, rfl, rfl, rfl,
      hblock (answers 1)⟩
  | true =>
    exact ⟨_, _, CellStore.alloc_cell_self _ _, CellStore.alloc_cell_self _ _, rfl, rfl, rfl, rfl, rfl, rfl,
      hblock (answers 2)⟩

/-- For every bound that a 64-bit size can pass: writes of `total` bytes stay within it exactly when both
nodes read as directories, or the total is so small that even a doubled buffer is. -/
theorem bounded_iff (junk : Nat → Node) (answers : Nat → Option Memory) (s : Vfs) {bound : Nat} (total : Nat)
    (hbound : bound + 2 < 2 ^ 64) : Bounded junk answers s bound total ↔
      (∀ id ∈ [1, 2], (junk id).type = .directory) ∨ total ≤ bound ∧ 2 * (total - 1) ≤ bound := by
  obtain ⟨stdout, stderr, s₀, hinit⟩ : ∃ stdout stderr s₀, initStd junk answers s = (stdout, stderr, s₀) :=
    ⟨_, _, _, rfl⟩
  obtain ⟨hne, hstart⟩ := initStd_standard junk answers s hinit
  have hkinds : (∀ id ∈ [1, 2], (junk id).type = .directory) ↔
      ∀ e : Bool, (junk (ofStd 1 2 e)).type = .directory := by
    rw [Bool.forall_bool, List.forall_mem_cons, List.forall_mem_singleton]
    rfl
  rw [hkinds]
  constructor
  · intro h
    by_contra hnot
    obtain ⟨hfile, hlarge⟩ := not_or.mp hnot
    obtain ⟨e, he⟩ := not_forall.mp hfile
    have hempty := (hstart e).mono fun d node hp => And.intro hp.1 hp.2.1
    rw [file_of_ne_directory he] at hempty
    obtain ⟨writes, t, hsum, hrun, capacity, hlt, hlast⟩ := exists_passing hempty hbound hlarge
    obtain ⟨d, node, hd, hn, hnode, -, -, hcapacity⟩ := hlast
    rw [← hnode] at hn
    have hwithin : ∀ e, Within t (ofStd stdout stderr e) bound :=
      Bool.forall_bool.mpr (h stdout stderr s₀ hinit writes t hsum hrun)
    have hle := (hwithin e d node hd hn).1
    omega
  · intro h stdout' stderr' s₀' hinit' writes t hsum hrun
    cases hinit.symm.trans hinit'
    have hfits := h.imp_right fun hsmall => show written writes ≤ bound ∧ 2 * (written writes - 1) ≤ bound by omega
    exact Bool.forall_bool.mp
      (run_within (ofStd_injective hne) (ofStd_injective (by omega)) hstart hbound hfits hrun)

/-- Nodes that `new Node` gives as files. -/
theorem bounded_fresh : Bounded (fun _ => ⟨[], .file, none, none, .null, 0, 0, 0⟩) (fun _ => none) Vfs.new 2 2 ↔
    (∀ id ∈ [1, 2], (⟨[], .file, none, none, .null, 0, 0, 0⟩ : Node).type = .directory) ∨
      2 ≤ 2 ∧ 2 * (2 - 1) ≤ 2 :=
  bounded_iff _ _ _ 2 (by decide)

/-- No constant is a bound for all that is written. -/
theorem console_unbounded : ¬∃ bound, bound + 2 < 2 ^ 64 ∧
    ∀ junk answers s total, Bounded junk answers s bound total := by
  intro h
  obtain ⟨bound, hbound, h⟩ := h
  have hall := h (fun _ => ⟨[], .file, none, none, .null, 0, 0, 0⟩) (fun _ => none) Vfs.new (bound + 1)
  rcases (bounded_iff _ _ _ _ hbound).mp hall with hdirectory | ⟨hle, -⟩
  · exact absurd (hdirectory 1 (by decide)) (by decide)
  · omega

end Vfs

end UmbraOS
