import UmbraOS.VfsWrite

namespace UmbraOS

namespace Vfs

/-- What a read of `length` bytes puts into the buffer of the caller. -/
def delivered (length : Nat) : Option (Nat → Byte) → List Byte
  | none => []
  | some bytes => (List.range length).map bytes

/-- The count, the bytes and the position after a read of a sequence of bytes, of which there may be none
at the position. -/
structure Slice (node : Node) (position length : Nat) (count : BitVec 64) (bytes : List Byte)
    (position' : Nat) : Prop where
  count : count = BitVec.ofNat 64 (min length (node.fileSize - position))
  bytes : bytes.map some =
    (List.range (min length (node.fileSize - position))).map fun i => node.byte (position + i)
  position : position' = position + min length (node.fileSize - position)

/-- The read does what a read of a sequence of bytes does. -/
def Reads (s : Vfs) (a : Nat) (d : FileDescriptor) (node : Node) (length : Nat) : Prop :=
  ∃ r bytes t d', s.read (some a) length = .ok (r, bytes, t) ∧ t.descriptors.cell a = some d' ∧
    Slice node d.rwPosition length r (delivered length bytes) d'.rwPosition

variable {s : Vfs} {a : Nat} {d : FileDescriptor} {node : Node}

/-- Where nothing is left, the read fails. -/
theorem read_past_end (hd : s.descriptors.cell a = some d) (hn : s.nodes.cell d.node = some node)
    (h : node.fileSize ≤ d.rwPosition) (length : Nat) : s.read (some a) length = .ok (-1, none, s) := by
  unfold Vfs.read
  simp only [CellStore.read_live hd, CellStore.read_live hn, Except.ok_bind]
  exact if_pos (Or.inl h)

theorem read_before_end (hd : s.descriptors.cell a = some d) (hn : s.nodes.cell d.node = some node)
    (hfile : node.type = .file) (hmode : d.mode ≠ .writeOnly) (hstdin : s.stdin ≠ some a)
    (h : d.rwPosition < node.fileSize) (length : Nat) :
    ∃ t, s.read (some a) length =
        .ok (BitVec.ofNat 64 length, some (node.fileData.bytesFrom d.rwPosition), t) ∧
      t.descriptors.cell a = some { d with rwPosition := u64 (d.rwPosition + length) } := by
  have hguard : ¬(d.rwPosition ≥ node.fileSize ∨ d.mode = .writeOnly ∨ node.type = .directory) := by
    rw [hfile]
    simp only [hmode, reduceCtorEq, or_false]
    omega
  unfold Vfs.read
  simp only [CellStore.read_live hd, CellStore.read_live hn, Except.ok_bind]
  rw [if_neg hguard]
  refine ⟨(s.tmpfsRead node d.rwPosition length).2.advance a length, ?_, CellStore.adjust_cell_self _ hd⟩
  have hother : ¬some a = (s.tmpfsRead node d.rwPosition length).2.stdin := fun he => hstdin he.symm
  show Except.ok (_, _, if some a = (s.tmpfsRead node d.rwPosition length).2.stdin then _ else _) = _
  rw [if_neg hother]
  rfl

theorem byte_of_lt {i : Nat} (h : i < node.fileData.allocated) :
    node.byte i = some (node.fileData.bytesFrom 0 i) := by
  unfold Node.byte FileData.bytesFrom
  cases hdata : node.fileData with
  | block size bytes =>
    rw [hdata] at h
    simp only [Nat.zero_add]
    exact if_pos h
  | null =>
    rw [hdata] at h
    exact absurd h (Nat.not_lt_zero i)
  | freed =>
    rw [hdata] at h
    exact absurd h (Nat.not_lt_zero i)

theorem bytesFrom_add (data : FileData) (offset i : Nat) :
    data.bytesFrom offset i = data.bytesFrom 0 (offset + i) := by
  cases data with
  | block size bytes => simp only [FileData.bytesFrom, Nat.zero_add]
  | null => rfl
  | freed => rfl

theorem allocated_of_byte {i : Nat} {b : Byte} (h : node.byte i = some b) : i < node.fileData.allocated := by
  unfold Node.byte at h
  cases hdata : node.fileData with
  | block size bytes =>
    rw [hdata] at h
    simp only at h
    split at h
    next hlt => exact hlt
    next => cases h
  | null =>
    rw [hdata] at h
    cases h
  | freed =>
    rw [hdata] at h
    cases h

/-- A read of a file does what a read of a sequence of bytes does exactly when it starts before the end of
the file, does not pass it, and the bytes are there. -/
theorem read_exact_iff (hd : s.descriptors.cell a = some d) (hn : s.nodes.cell d.node = some node)
    (hfile : node.type = .file) (hmode : d.mode ≠ .writeOnly) (hstdin : s.stdin ≠ some a)
    (hsize : node.fileSize < 2 ^ 64) (length : BitVec 64) : Reads s a d node length.toNat ↔
      d.rwPosition < node.fileSize ∧ d.rwPosition + length.toNat ≤ node.fileSize ∧
        ∀ i < length.toNat, d.rwPosition + i < node.fileData.allocated := by
  have hlength := length.isLt
  rcases Nat.lt_or_ge d.rwPosition node.fileSize with hlt | hge
  · obtain ⟨t, hread, ht⟩ := read_before_end hd hn hfile hmode hstdin hlt length.toNat
    constructor
    · intro h
      obtain ⟨r, bytes, t', d', hread', ht', hslice⟩ := h
      cases hread.symm.trans hread'
      -- the count is the length that was asked for, so that much is left
      have hcount := congrArg BitVec.toNat hslice.count
      rw [BitVec.toNat_ofNat, BitVec.toNat_ofNat, Nat.mod_eq_of_lt hlength,
        Nat.mod_eq_of_lt (by omega)] at hcount
      refine ⟨hlt, by omega, fun i hi => ?_⟩
      have hbyte := congrArg (fun bytes => bytes[i]?) hslice.bytes
      simp only [delivered, List.getElem?_map, List.getElem?_range hi, ← hcount, Option.map_some] at hbyte
      exact allocated_of_byte (Option.some.inj hbyte).symm
    · intro h
      obtain ⟨-, hend, hthere⟩ := h
      have hmin : min length.toNat (node.fileSize - d.rwPosition) = length.toNat := by omega
      refine ⟨_, _, t, _, hread, ht, ?_, ?_, ?_⟩
      · rw [hmin]
      · rw [hmin]
        simp only [delivered, List.map_map]
        refine List.map_congr_left fun i hi => ?_
        rw [Function.comp, byte_of_lt (hthere i (List.mem_range.mp hi)), bytesFrom_add]
      · rw [hmin]
        exact u64_of_lt (by omega)
  · refine iff_of_false (fun h => ?_) fun h => absurd h.1 (by omega)
    obtain ⟨r, bytes, t, d', hread, -, hslice⟩ := h
    cases (read_past_end hd hn hge length.toNat).symm.trans hread
    have hcount := hslice.count
    rw [show min length.toNat (node.fileSize - d.rwPosition) = 0 by omega] at hcount
    exact absurd hcount (by decide)

/-- A file with a descriptor at its start. -/
def fileOf (size : Nat) (bytes : Memory) : Vfs :=
  { new with
    nodes := CellStore.empty.alloc ⟨[], .file, none, none, .block size bytes, size, size, 0⟩
    descriptors := CellStore.empty.alloc ⟨0, .readOnly, 0⟩ }

theorem fileOf_reads : Reads (fileOf 2 fun _ => 7#8) 0 ⟨0, .readOnly, 0⟩
      ⟨[], .file, none, none, .block 2 fun _ => 7#8, 2, 2, 0⟩ (1#64).toNat ↔
    0 < 2 ∧ 0 + (1#64).toNat ≤ 2 ∧ ∀ i < (1#64).toNat, 0 + i < 2 :=
  read_exact_iff rfl rfl rfl (by decide) (by decide) (by decide) 1#64

/-- A read of two bytes of a file of one byte returns two. -/
theorem read_ignores_end : ¬∀ (s : Vfs) (a : Nat) (d : FileDescriptor) (node : Node) (length : BitVec 64),
    s.descriptors.cell a = some d → s.nodes.cell d.node = some node → node.type = .file →
    d.mode ≠ .writeOnly → s.stdin ≠ some a → node.fileSize < 2 ^ 64 →
    node.fileSize ≤ node.fileData.allocated → Reads s a d node length.toNat := by
  intro h
  have hreads := h (fileOf 1 fun _ => 7#8) 0 _ _ 2#64 rfl rfl rfl (by decide) (by decide) (by decide)
    (by decide)
  obtain ⟨r, bytes, t, d', hread, -, hslice⟩ := hreads
  cases hread
  exact absurd hslice.count (by decide)

end Vfs

end UmbraOS
