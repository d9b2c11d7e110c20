import UmbraOS.Runs
import UmbraOS.Vfs

namespace UmbraOS

/-- The byte at an index of a file, where a byte is allocated for it. -/
def Node.byte (node : Node) (i : Nat) : Option Byte :=
  match node.fileData with
  | .block size bytes => if i < size then some (bytes i) else none
  | _ => none

namespace Vfs

theorem growLoop_le {needed capacity : Nat} (fuel : Nat) (h : needed ≤ capacity) :
    growLoop needed fuel capacity = some capacity := by
  unfold growLoop
  rw [if_neg (by omega)]

theorem growLoop_double {needed capacity : Nat} (fuel : Nat) (h : capacity < needed) :
    growLoop needed (fuel + 1) capacity = growLoop needed fuel (u64 (capacity * 2)) := by
  rw [growLoop, if_pos h]

theorem growLoop_stop {needed capacity : Nat} (h : capacity < needed) :
    growLoop needed 0 capacity = none := by
  unfold growLoop
  rw [if_pos h]

theorem u64_double (capacity k : Nat) :
    u64 (u64 (capacity * 2) * 2 ^ k) = u64 (capacity * 2 ^ (k + 1)) := by
  have hpow : capacity * 2 * 2 ^ k = capacity * 2 ^ (k + 1) := by ring
  unfold u64
  rw [Nat.mod_mul_mod, hpow]

/-- The loop stops at a capacity that is large enough, and keeps what doubling keeps. -/
theorem growLoop_keeps {P : Nat → Prop} {needed capacity result : Nat} (fuel : Nat)
    (hdouble : ∀ c, P c → c < needed → P (u64 (c * 2))) (hc : P capacity)
    (h : growLoop needed fuel capacity = some result) : needed ≤ result ∧ P result := by
  induction fuel generalizing capacity with
  | zero =>
    by_cases hlt : capacity < needed
    · rw [growLoop_stop hlt] at h
      cases h
    · rw [growLoop_le 0 (by omega)] at h
      cases h
      exact ⟨by omega, hc⟩
  | succ fuel ih =>
    by_cases hlt : capacity < needed
    · rw [growLoop_double fuel hlt] at h
      exact ih (hdouble _ hc hlt) h
    · rw [growLoop_le _ (by omega)] at h
      cases h
      exact ⟨by omega, hc⟩

theorem growLoop_needed {needed capacity result : Nat} (fuel : Nat)
    (h : growLoop needed fuel capacity = some result) : needed ≤ result :=
  (growLoop_keeps (P := fun _ => True) fuel (fun _ _ _ => trivial) trivial h).1

theorem growLoop_reaches_iff {needed capacity : Nat} (fuel : Nat) (hc : capacity < 2 ^ 64) :
    growLoop needed fuel capacity ≠ none ↔ ∃ k ≤ fuel, needed ≤ u64 (capacity * 2 ^ k) := by
  induction fuel generalizing capacity with
  | zero =>
    have h0 : u64 (capacity * 2 ^ 0) = capacity := by
      rw [Nat.pow_zero, Nat.mul_one, u64_of_lt hc]
    constructor
    · intro h
      refine ⟨0, le_refl _, ?_⟩
      rw [h0]
      by_contra hlt
      exact h (growLoop_stop (by omega))
    · rintro ⟨k, hk, hle⟩
      rw [Nat.le_zero.mp hk, h0] at hle
      rw [growLoop_le 0 hle]
      exact Option.some_ne_none _
  | succ fuel ih =>
    by_cases hlt : capacity < needed
    · rw [growLoop_double fuel hlt, ih (u64_lt _)]
      constructor
      · rintro ⟨k, hk, hle⟩
        exact ⟨k + 1, by omega, by rw [← u64_double]; exact hle⟩
      · rintro ⟨k, hk, hle⟩
        cases k with
        | zero =>
          rw [Nat.pow_zero, Nat.mul_one, u64_of_lt hc] at hle
          omega
        | succ k => exact ⟨k, by omega, by rw [u64_double]; exact hle⟩
    · rw [growLoop_le _ (by omega)]
      refine ⟨fun _ => ⟨0, by omega, ?_⟩, fun _ => Option.some_ne_none _⟩
      rw [Nat.pow_zero, Nat.mul_one, u64_of_lt hc]
      omega

/-- After 64 doublings the capacity is zero, so the loop stops within them or never. -/
theorem growLoop_of_doubling {needed capacity : Nat} (hc : capacity < 2 ^ 64)
    (hn : 0 < needed) : growLoop needed 64 capacity ≠ none ↔
      ∃ k, needed ≤ u64 (capacity * 2 ^ k) := by
  rw [growLoop_reaches_iff 64 hc]
  constructor
  · rintro ⟨k, _, hle⟩
    exact ⟨k, hle⟩
  · rintro ⟨k, hle⟩
    refine ⟨k, ?_, hle⟩
    by_contra hk
    obtain ⟨j, rfl⟩ : ∃ j, k = j + 64 := ⟨k - 64, by omega⟩
    have hzero : u64 (capacity * 2 ^ (j + 64)) = 0 := by
      unfold u64
      rw [Nat.pow_add, ← Nat.mul_assoc, Nat.mul_mod_left]
    omega

/-- What a write of `length` bytes at `position` does to a file as a sequence of bytes. -/
def Writes (old new : Node) (position : Nat) (buffer : Nat → Byte) (length : Nat) : Prop :=
  (∀ i < length, new.byte (position + i) = some (buffer i)) ∧
  (∀ i < old.fileSize, ¬(position ≤ i ∧ i < position + length) → new.byte i = old.byte i) ∧
  new.fileSize = max old.fileSize (position + length)

/-- The writes that do it: the first one at the start of an empty file, one that fits the
buffer, and one at the start that makes the buffer grow. -/
def WriteMeets (node : Node) (position length : Nat) (answered : Bool) : Prop :=
  node.fileSize = 0 ∧ (position = 0 ∧ answered = true ∨ length = 0) ∨
  0 < node.fileSize ∧ position + length ≤ node.capacity ∨
  0 < node.fileSize ∧ position = 0 ∧ node.capacity < length ∧
    (∃ k, length ≤ u64 (node.capacity * 2 ^ k)) ∧ answered = true

/-- The sizes of a file agree with its buffer, or nothing was ever reserved for it. -/
structure Tidy (node : Node) : Prop where
  file : node.type = .file
  small : node.fileSize < 2 ^ 64
  capacity : node.capacity < 2 ^ 64
  inside : node.capacity ≤ node.fileData.allocated
  filled : node.fileSize ≤ node.capacity ∨ node.capacity = 0

/-- The node after the copy of a write into its buffer. -/
def filled (node : Node) (position : Nat) (buffer : Nat → Byte) (length : Nat) : Node :=
  { node with
    fileData := node.fileData.copyTo position length buffer
    fileSize := if u64 (position + length) > node.fileSize then u64 (position + length)
      else node.fileSize }

theorem byte_copyTo (data : FileData) (node : Node) (hd : node.fileData = data) (position : Nat)
    (buffer : Nat → Byte) (length i : Nat) :
    (filled node position buffer length).byte i =
      if position ≤ i ∧ i < position + length then
        if i < data.allocated then some (buffer (i - position)) else none
      else node.byte i := by
  subst hd
  unfold filled Node.byte
  cases node.fileData with
  | null => simp [FileData.copyTo, FileData.allocated]
  | freed => simp [FileData.copyTo, FileData.allocated]
  | block size bytes =>
    simp only [FileData.copyTo, FileData.allocated, Memory.copy]
    by_cases hw : position ≤ i ∧ i < position + length <;> by_cases hi : i < size <;> simp [hw, hi]

theorem filled_bytes (node : Node) {position length : Nat} (buffer : Nat → Byte)
    (h : position + length ≤ node.fileData.allocated) :
    (∀ i < length, (filled node position buffer length).byte (position + i) = some (buffer i)) ∧
    ∀ i, ¬(position ≤ i ∧ i < position + length) →
      (filled node position buffer length).byte i = node.byte i := by
  constructor
  · intro i hi
    rw [byte_copyTo _ node rfl, if_pos (by omega), if_pos (by omega), Nat.add_sub_cancel_left]
  · intro i hi
    rw [byte_copyTo _ node rfl, if_neg hi]

theorem filled_size {node : Node} {position length : Nat} (buffer : Nat → Byte)
    (h : position + length < 2 ^ 64) :
    (filled node position buffer length).fileSize = max node.fileSize (position + length) := by
  unfold filled
  simp only [u64_of_lt h]
  split <;> omega

@[simp] theorem copyTo_allocated (data : FileData) (offset length : Nat) (buffer : Nat → Byte) :
    (data.copyTo offset length buffer).allocated = data.allocated := by
  cases data <;> rfl

theorem filled_tidy {node : Node} {position length : Nat} (buffer : Nat → Byte)
    (hf : node.type = .file) (hs : node.fileSize < 2 ^ 64) (hc : node.capacity < 2 ^ 64)
    (hin : node.capacity ≤ node.fileData.allocated)
    (hfill : node.fileSize ≤ node.capacity ∧ position + length ≤ node.capacity ∨
      node.capacity = 0) : Tidy (filled node position buffer length) := by
  refine ⟨hf, ?_, hc, ?_, ?_⟩
  · have := u64_lt (position + length)
    unfold filled
    simp only
    split <;> omega
  · unfold filled
    simp only [copyTo_allocated]
    exact hin
  · rcases hfill with ⟨hle, hp⟩ | hz
    · left
      rw [filled_size buffer (by omega)]
      unfold filled
      simp only
      omega
    · exact Or.inr hz

theorem makeRoom_first {node : Node} {position length : Nat} (answer : Option Memory)
    (h : node.fileSize = 0) : makeRoom node position length answer = .ok (true, { node with
      fileData := FileData.ofNew length answer, fileSize := length, capacity := length }) := by
  rw [makeRoom, if_pos h]

theorem makeRoom_fits {node : Node} {position length : Nat} (answer : Option Memory)
    (h : node.fileSize ≠ 0) (hle : u64 (position + length) ≤ node.capacity) :
    makeRoom node position length answer = .ok (true, node) := by
  rw [makeRoom, if_neg h, if_neg (by omega)]

theorem makeRoom_grows {node : Node} {position length capacity : Nat} (junk : Memory)
    (h : node.fileSize ≠ 0) (hlt : node.capacity < u64 (position + length))
    (hg : growLoop (u64 (position + length)) 64 node.capacity = some capacity) :
    makeRoom node position length (some junk) =
      .ok (true, { node with fileData := .block capacity junk, capacity }) := by
  rw [makeRoom, if_neg h, if_pos hlt, hg]

/-- Growth that fails leaves a file without a buffer. -/
theorem makeRoom_fails {node node' : Node} {position length : Nat} {answer : Option Memory}
    (h : makeRoom node position length answer = .ok (false, node')) :
    0 < node.fileSize ∧ node.capacity < u64 (position + length) ∧
      growLoop (u64 (position + length)) 64 node.capacity ≠ none ∧
      node' = { node with fileData := .freed } ∧ answer = none := by
  unfold makeRoom at h
  split at h
  next => cases h
  next hz =>
    split at h
    next hlt =>
      split at h
      next => cases h
      next capacity hg =>
        split at h
        next =>
          cases h
          exact ⟨by omega, hlt, by rw [hg]; exact Option.some_ne_none _, rfl, rfl⟩
        next => cases h
    next => cases h

theorem growLoop_lt {needed capacity result : Nat} (fuel : Nat) (hc : capacity < 2 ^ 64)
    (h : growLoop needed fuel capacity = some result) : result < 2 ^ 64 :=
  (growLoop_keeps (P := fun c => c < 2 ^ 64) fuel (fun _ _ _ => u64_lt _) hc h).2

/-- A write that meets the condition does what it does to a sequence of bytes. -/
theorem WriteMeets.writes {node : Node} {position length : Nat} {answer : Option Memory}
    (h : WriteMeets node position length answer.isSome) (ht : Tidy node)
    (hp : position < 2 ^ 64) (hl : length < 2 ^ 64) (buffer : Nat → Byte) :
    ∃ node', makeRoom node position length answer = .ok (true, node') ∧
      Writes node (filled node' position buffer length) position buffer length ∧
      Tidy (filled node' position buffer length) := by
  rcases h with ⟨hz, hcase⟩ | ⟨hpos, hfit⟩ | ⟨hpos, hstart, hlt, ⟨k, hk⟩, hans⟩
  · refine ⟨_, makeRoom_first answer hz, ?_⟩
    rcases hcase with ⟨rfl, hans⟩ | rfl
    · obtain ⟨junk, rfl⟩ := Option.isSome_iff_exists.mp hans
      obtain ⟨hin, _⟩ := filled_bytes { node with
        fileData := .block length junk, fileSize := length, capacity := length } buffer
        (show 0 + length ≤ length by omega)
      refine ⟨⟨hin, fun i hi => absurd hi (by omega), ?_⟩, ?_⟩
      · rw [filled_size buffer (by omega), hz]
        show max length (0 + length) = max 0 (0 + length)
        omega
      · have hfit : 0 + length ≤ length := by omega
        exact filled_tidy buffer ht.file hl hl (le_refl _) (Or.inl ⟨le_refl _, hfit⟩)
    · refine ⟨⟨fun i hi => absurd hi (by omega), fun i hi => absurd hi (by omega), ?_⟩, ?_⟩
      · rw [filled_size buffer (by omega), hz]
      · exact filled_tidy buffer ht.file hl hl (Nat.zero_le _) (Or.inr rfl)
  · have hcap := ht.capacity
    have hin := ht.inside
    have hsum : position + length < 2 ^ 64 := by omega
    refine ⟨node, makeRoom_fits answer (by omega) (by rw [u64_of_lt hsum]; exact hfit), ?_⟩
    obtain ⟨hwin, hkeep⟩ := filled_bytes node buffer (by omega : position + length ≤ _)
    refine ⟨⟨hwin, fun i _ => hkeep i, filled_size buffer hsum⟩, ?_⟩
    refine filled_tidy buffer ht.file ht.small ht.capacity ht.inside ?_
    rcases ht.filled with hle | hz
    · exact Or.inl ⟨hle, hfit⟩
    · exact Or.inr hz
  · subst hstart
    obtain ⟨junk, rfl⟩ := Option.isSome_iff_exists.mp hans
    have hneed : u64 (0 + length) = length := by rw [Nat.zero_add, u64_of_lt hl]
    have hreach := (growLoop_of_doubling ht.capacity (show 0 < length by omega)).mpr ⟨k, hk⟩
    obtain ⟨capacity, hg⟩ := Option.ne_none_iff_exists'.mp hreach
    have hroom := growLoop_needed 64 hg
    have hcap := growLoop_lt 64 ht.capacity hg
    -- a buffer that can grow was not empty, so it held the whole file
    have hfilled : node.fileSize ≤ node.capacity := by
      rcases ht.filled with hle | hz
      · exact hle
      · rw [hz, Nat.zero_mul, u64_of_lt (by decide)] at hk
        omega
    refine ⟨{ node with fileData := .block capacity junk, capacity }, ?_, ?_⟩
    · exact makeRoom_grows junk (by omega) (by rw [hneed]; exact hlt) (by rw [hneed]; exact hg)
    · obtain ⟨hin, _⟩ := filled_bytes { node with
        fileData := .block capacity junk, capacity } buffer (show 0 + length ≤ capacity by omega)
      refine ⟨⟨hin, fun i hi hout => absurd hout (by omega), ?_⟩, ?_⟩
      · exact filled_size buffer (by omega)
      · refine filled_tidy buffer ht.file ht.small hcap (le_refl _) (Or.inl ⟨?_, ?_⟩)
        · simp only
          omega
        · simp only
          omega

theorem exists_answer (answered : Bool) : ∃ answer : Option Memory, answer.isSome = answered := by
  cases answered with
  | true => exact ⟨some fun _ => 0#8, rfl⟩
  | false => exact ⟨none, rfl⟩

/-- A buffer of the length of the first write holds its last byte only if it starts at 0. -/
theorem Writes.first {node : Node} {position length : Nat} {answer : Option Memory}
    {buffer : Nat → Byte} (hlength : 0 < length)
    (h : Writes node (filled { node with
      fileData := FileData.ofNew length answer, fileSize := length, capacity := length }
      position buffer length) position buffer length) :
    position = 0 ∧ answer.isSome = true := by
  have hlast := h.1 (length - 1) (by omega)
  rw [byte_copyTo _ _ rfl, if_pos (by omega)] at hlast
  cases answer with
  | none => simp [FileData.ofNew, FileData.allocated] at hlast
  | some junk =>
    simp only [FileData.ofNew, FileData.allocated] at hlast
    by_cases hin : position + (length - 1) < length
    · exact ⟨by omega, rfl⟩
    · simp [hin] at hlast

/-- The new size would wrap around. -/
theorem Writes.fits {node : Node} {position length : Nat} {buffer : Nat → Byte}
    (hs : node.fileSize < 2 ^ 64)
    (h : Writes node (filled node position buffer length) position buffer length) :
    position + length < 2 ^ 64 := by
  have hsize := h.2.2
  have := u64_lt (position + length)
  unfold filled at hsize
  simp only at hsize
  split at hsize <;> omega

/-- Otherwise the first byte of the file would be whatever the new buffer held. -/
theorem Writes.grown {node : Node} {position length capacity : Nat} {buffer : Nat → Byte}
    (hpos : 0 < node.fileSize) (hroom : 0 < position → 0 < capacity)
    (h : ∀ junk : Memory, Writes node (filled { node with
      fileData := .block capacity junk, capacity } position buffer length) position buffer length) :
    position = 0 := by
  by_contra hne
  have hfirst : ∀ x : Byte, some x = node.byte 0 := by
    intro x
    have h0 := (h fun _ => x).2.1 0 hpos (by omega)
    rw [byte_copyTo _ _ rfl, if_neg (by omega)] at h0
    rw [← h0]
    unfold Node.byte
    simp only
    rw [if_pos (hroom (by omega))]
  have := (hfirst 0#8).trans (hfirst 1#8).symm
  simp at this

theorem makeRoom_grown {node node' : Node} {position length : Nat} {answer : Option Memory}
    (hz : node.fileSize ≠ 0) (hlt : node.capacity < u64 (position + length))
    (h : makeRoom node position length answer = .ok (true, node')) :
    ∃ junk capacity, answer = some junk ∧
      growLoop (u64 (position + length)) 64 node.capacity = some capacity ∧
      node' = { node with fileData := .block capacity junk, capacity } := by
  rw [makeRoom, if_neg hz, if_pos hlt] at h
  cases hg : growLoop (u64 (position + length)) 64 node.capacity with
  | none =>
    rw [hg] at h
    cases h
  | some capacity =>
    rw [hg] at h
    cases answer with
    | none => cases h
    | some junk =>
      cases h
      exact ⟨junk, capacity, rfl, rfl, rfl⟩

/-- A write that misses the condition loses bytes, reaches past the buffer or never ends. -/
theorem writeMeets_of_writes {node : Node} {position length : Nat} {answered : Bool}
    (ht : Tidy node) (hp : position < 2 ^ 64) (hl : length < 2 ^ 64) (buffer : Nat → Byte)
    (h : ∀ answer : Option Memory, answer.isSome = answered →
      ∃ node', makeRoom node position length answer = .ok (true, node') ∧
        Writes node (filled node' position buffer length) position buffer length) :
    WriteMeets node position length answered := by
  obtain ⟨answer, hans⟩ := exists_answer answered
  obtain ⟨node', hroom, hw⟩ := h answer hans
  by_cases hz : node.fileSize = 0
  · refine Or.inl ⟨hz, ?_⟩
    rw [makeRoom_first answer hz] at hroom
    cases hroom
    rcases Nat.eq_zero_or_pos length with hl0 | hlength
    · exact Or.inr hl0
    · obtain ⟨hstart, hsome⟩ := hw.first hlength
      exact Or.inl ⟨hstart, hans.symm.trans hsome⟩
  by_cases hfit : u64 (position + length) ≤ node.capacity
  · refine Or.inr (Or.inl ⟨by omega, ?_⟩)
    rw [makeRoom_fits answer hz hfit] at hroom
    cases hroom
    rwa [u64_of_lt (hw.fits ht.small)] at hfit
  · refine Or.inr (Or.inr ?_)
    have hlt : node.capacity < u64 (position + length) := by omega
    obtain ⟨junk, capacity, rfl, hg, -⟩ := makeRoom_grown hz hlt hroom
    -- the request was answered, whatever the memory of the new buffer
    have hgrown : ∀ junk : Memory, Writes node (filled { node with
        fileData := .block capacity junk, capacity } position buffer length)
        position buffer length := by
      intro junk'
      obtain ⟨node', hroom, hw⟩ := h (some junk') hans
      obtain ⟨_, capacity', hj, hg', rfl⟩ := makeRoom_grown hz hlt hroom
      cases hj
      rw [hg] at hg'
      cases hg'
      exact hw
    have hneed := growLoop_needed 64 hg
    obtain rfl := Writes.grown (by omega) (fun _ => by omega) hgrown
    have hu : u64 (0 + length) = length := by rw [Nat.zero_add, u64_of_lt hl]
    rw [hu] at hlt hg
    have hreach : growLoop length 64 node.capacity ≠ none := by
      rw [hg]
      exact Option.some_ne_none _
    exact ⟨by omega, rfl, hlt, (growLoop_of_doubling ht.capacity (by omega)).mp hreach, hans.symm⟩

section Calls

variable {s t : Vfs} {a length : Nat} {buffer : Nat → Byte} {answer : Option Memory} {d : FileDescriptor}
  {node : Node}

/-- What comes of a read through the descriptor `d` at `a` from its node. -/
inductive ReadEnds (s : Vfs) (a length : Nat) (d : FileDescriptor) (node : Node) :
    BitVec 64 × Option (Nat → Byte) × Vfs → Prop
  | fails (guard : d.rwPosition ≥ node.fileSize ∨ d.mode = .writeOnly ∨ node.type = .directory) :
      ReadEnds s a length d node (-1, none, s)
  | copies (before : d.rwPosition < node.fileSize) (mode : d.mode ≠ .writeOnly) (type : node.type ≠ .directory) :
      ReadEnds s a length d node (BitVec.ofNat 64 length, some (node.fileData.bytesFrom d.rwPosition),
        if some a = s.stdin then (s.tmpfsRead node d.rwPosition length).2
        else (s.tmpfsRead node d.rwPosition length).2.advance a length)

theorem read_ends {r : BitVec 64 × Option (Nat → Byte) × Vfs} (h : s.read (some a) length = .ok r) :
    ∃ d node, s.descriptors.cell a = some d ∧ s.nodes.cell d.node = some node ∧
      ReadEnds s a length d node r := by
  unfold read at h
  obtain ⟨d, hd, h⟩ := Except.bind_eq_ok.mp h
  have hd := CellStore.read_some_ok.mp hd
  obtain ⟨node, hn, h⟩ := Except.bind_eq_ok.mp h
  have hn := CellStore.read_some_ok.mp hn
  refine ⟨d, node, hd, hn, ?_⟩
  split at h
  next hguard =>
    cases h
    exact .fails hguard
  next hguard =>
    obtain ⟨hbefore, hrest⟩ := not_or.mp hguard
    obtain ⟨hmode, htype⟩ := not_or.mp hrest
    cases h
    exact .copies (Nat.lt_of_not_le hbefore) hmode htype

/-- What comes of a write through the descriptor `d` at `a` to its node. -/
inductive WriteEnds (s : Vfs) (a : Nat) (buffer : Nat → Byte) (length : Nat) (answer : Option Memory)
    (d : FileDescriptor) (node : Node) : BitVec 64 × Vfs → Prop
  | refuses (guard : d.mode = .readOnly ∨ node.type = .directory) :
      WriteEnds s a buffer length answer d node (0, s)
  | copies (new : Node) (mode : d.mode ≠ .readOnly) (type : node.type ≠ .directory)
      (room : makeRoom node d.rwPosition length answer = .ok (true, new)) :
      WriteEnds s a buffer length answer d node (BitVec.ofNat 64 length,
        { s with
          nodes := s.nodes.adjust d.node fun _ => filled new d.rwPosition buffer length
          descriptors := s.descriptors.adjust a fun d => { d with rwPosition := u64 (d.rwPosition + length) }
          accesses := ⟨d.rwPosition, length, new.fileData.allocated⟩ :: s.accesses })
  | fails (new : Node) (mode : d.mode ≠ .readOnly) (type : node.type ≠ .directory)
      (room : makeRoom node d.rwPosition length answer = .ok (false, new)) :
      WriteEnds s a buffer length answer d node (-1, { s with nodes := s.nodes.adjust d.node fun _ => new })

theorem write_ends {r : BitVec 64 × Vfs} (h : s.write (some a) buffer length answer = .ok r) :
    ∃ d node, s.descriptors.cell a = some d ∧ s.nodes.cell d.node = some node ∧
      WriteEnds s a buffer length answer d node r := by
  unfold write at h
  obtain ⟨d, hd, h⟩ := Except.bind_eq_ok.mp h
  have hd := CellStore.read_some_ok.mp hd
  obtain ⟨node, hn, h⟩ := Except.bind_eq_ok.mp h
  have hn := CellStore.read_some_ok.mp hn
  refine ⟨d, node, hd, hn, ?_⟩
  split at h
  next hguard =>
    cases h
    exact .refuses hguard
  next hguard =>
    obtain ⟨hmode, htype⟩ := not_or.mp hguard
    obtain ⟨⟨go, new⟩, hroom, h⟩ := Except.bind_eq_ok.mp h
    cases go with
    | true =>
      cases h
      exact .copies new hmode htype hroom
    | false =>
      cases h
      exact .fails new hmode htype hroom

/-- A seek sets the position of its descriptor and does nothing else. -/
theorem seek_ends {offset : Nat} {mode : SeekMode} (h : s.seek (some a) offset mode = .ok t) :
    ∃ position : FileDescriptor → Nat,
      t = { s with descriptors := s.descriptors.adjust a fun d => { d with rwPosition := position d } } := by
  unfold seek at h
  obtain ⟨d, -, h⟩ := Except.bind_eq_ok.mp h
  cases mode with
  | set =>
    cases h
    exact ⟨fun _ => offset, rfl⟩
  | current =>
    cases h
    exact ⟨fun d => u64 (d.rwPosition + offset), rfl⟩
  | «end» =>
    obtain ⟨node, -, h⟩ := Except.bind_eq_ok.mp h
    cases h
    exact ⟨fun _ => u64 (node.fileSize + offset), rfl⟩

/-- Reading changes no node. -/
theorem read_nodes {fd : Option Nat} {r : BitVec 64 × Option (Nat → Byte) × Vfs}
    (h : s.read fd length = .ok r) : r.2.2.nodes = s.nodes := by
  cases fd with
  | none =>
    cases h
    rfl
  | some a =>
    obtain ⟨d, node, -, -, hends⟩ := read_ends h
    cases hends with
    | fails => rfl
    | copies =>
      simp only
      split
      next => rfl
      next => rfl

end Calls

end Vfs

end UmbraOS
