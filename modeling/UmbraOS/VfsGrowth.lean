import UmbraOS.InitramfsTree
import UmbraOS.VfsBounds
import Mathlib.Data.Nat.Log

namespace UmbraOS

namespace Vfs

/-- A step of a run: an archive is unpacked, or an operation on files. -/
inductive TreeOp
  | init (m : Memory) (answers : Nat → Option Memory) (fuel archive : Nat)
  | op (op : Op)

def treeStep (literal : Nat → Byte) (s : Vfs) : TreeOp → Except Trap Vfs
  | .init m answers fuel archive => Initramfs.init literal m answers fuel s archive
  | .op op => step literal s op

/-- Where a write comes to the loop that doubles the capacity, the size it needs and the capacity that it
starts from are as `P` says. -/
def AtLoop (P : Nat → Nat → Prop) (s : Vfs) (a length : Nat) : Prop :=
  ∀ d node, s.descriptors.cell a = some d → s.nodes.cell d.node = some node →
    d.mode ≠ .readOnly → node.type ≠ .directory → node.fileSize ≠ 0 →
    P (u64 (d.rwPosition + length)) node.capacity

/-- Some number of turns ends the loop. -/
def Ends (needed capacity : Nat) : Prop := ∃ turns, growLoop needed turns capacity ≠ none

/-- The capacity is large enough; or it is not 0, and half of the address space is, or else one of the
capacity's own multiples by a power of two, in 64 bits. -/
def Enough (needed capacity : Nat) : Prop :=
  needed ≤ capacity ∨ capacity ≠ 0 ∧ (needed ≤ 2 ^ 63 ∨
    2 ^ 63 < needed ∧ ∃ k < 64, needed ≤ u64 (capacity * 2 ^ k))

def OnWrite (P : Nat → Nat → Prop) (s : Vfs) : TreeOp → Prop
  | .op (.write (some a) _ length _) => AtLoop P s a length.toNat
  | _ => True

theorem onWrite_iff {P : Nat → Nat → Prop} {s : Vfs} {op : TreeOp} : OnWrite P s op ↔
    ∀ a buffer length answer, op = .op (.write (some a) buffer length answer) → AtLoop P s a length.toNat := by
  constructor
  · rintro h a buffer length answer rfl
    exact h
  · intro h
    cases op with
    | init m answers fuel archive => trivial
    | op op =>
      cases op with
      | create path type => trivial
      | openFile path mode => trivial
      | seek fd offset mode => trivial
      | read fd length => trivial
      | write fd buffer length answer =>
        cases fd with
        | none => trivial
        | some a => exact h a buffer length answer rfl

/-- Doubling a number that is not 0 comes to at least 2 ^ 63 before it wraps. -/
theorem exists_double {capacity : Nat} (hc : capacity < 2 ^ 64) (h0 : capacity ≠ 0) :
    ∃ k < 64, 2 ^ 63 ≤ u64 (capacity * 2 ^ k) := by
  have hlow : 2 ^ Nat.log 2 capacity ≤ capacity := Nat.pow_log_le_self 2 h0
  have hhigh : capacity < 2 ^ (Nat.log 2 capacity + 1) := Nat.lt_pow_succ_log_self Nat.one_lt_two capacity
  have hlog : Nat.log 2 capacity ≤ 63 := Nat.le_of_lt_succ (Nat.log_lt_of_lt_pow h0 hc)
  obtain ⟨k, hk⟩ := Nat.exists_eq_add_of_le hlog
  refine ⟨k, by omega, ?_⟩
  have hpow : 2 ^ Nat.log 2 capacity * 2 ^ k = 2 ^ 63 := by rw [← Nat.pow_add, ← hk]
  have hpow' : 2 ^ (Nat.log 2 capacity + 1) * 2 ^ k = 2 ^ 64 := by
    rw [← Nat.pow_add, show Nat.log 2 capacity + 1 + k = 64 by omega]
  have hup : capacity * 2 ^ k < 2 ^ 64 := by
    rw [← hpow']
    exact Nat.mul_lt_mul_of_pos_right hhigh (Nat.two_pow_pos k)
  rw [u64_of_lt hup, ← hpow]
  exact Nat.mul_le_mul_right _ hlow

theorem ends_iff {needed capacity : Nat} (hc : capacity < 2 ^ 64) :
    Ends needed capacity ↔ Enough needed capacity := by
  have hshift : Ends needed capacity ↔ ∃ k, needed ≤ u64 (capacity * 2 ^ k) := by
    unfold Ends
    simp only [growLoop_reaches_iff _ hc]
    exact ⟨fun ⟨_, k, _, hk⟩ => ⟨k, hk⟩, fun ⟨k, hk⟩ => ⟨k, k, le_refl k, hk⟩⟩
  rw [hshift]
  constructor
  · intro h
    obtain ⟨k, hk⟩ := h
    by_cases hfit : needed ≤ capacity
    · exact Or.inl hfit
    · have h0 : capacity ≠ 0 := by
        rintro rfl
        rw [Nat.zero_mul] at hk
        exact hfit hk
      by_cases hhalf : needed ≤ 2 ^ 63
      · exact Or.inr ⟨h0, Or.inl hhalf⟩
      · obtain ⟨turns, hturns, hle⟩ := (growLoop_reaches_iff 64 hc).mp
          ((growLoop_of_doubling hc (by omega)).mpr ⟨k, hk⟩)
        refine Or.inr ⟨h0, Or.inr ⟨by omega, turns, ?_, hle⟩⟩
        by_contra hlast
        obtain rfl : turns = 64 := by omega
        rw [u64, Nat.mul_mod_left] at hle
        omega
  · intro h
    rcases h with hfit | ⟨h0, hhalf | ⟨-, k, -, hk⟩⟩
    · refine ⟨0, ?_⟩
      rw [Nat.pow_zero, Nat.mul_one, u64_of_lt hc]
      exact hfit
    · obtain ⟨k, -, hk⟩ := exists_double hc h0
      exact ⟨k, hhalf.trans hk⟩
    · exact ⟨k, hk⟩

theorem AtLoop.congr {P Q : Nat → Nat → Prop} {s : Vfs}
    (h : ∀ a node, s.nodes.cell a = some node → ∀ needed, P needed node.capacity ↔ Q needed node.capacity)
    (a length : Nat) : AtLoop P s a length ↔ AtLoop Q s a length := by
  constructor
  · intro hp d node hd hn hmode htype hsize
    exact (h _ node hn _).mp (hp d node hd hn hmode htype hsize)
  · intro hq d node hd hn hmode htype hsize
    exact (h _ node hn _).mpr (hq d node hd hn hmode htype hsize)

section Write

variable {s t : Vfs} {a length : Nat} {buffer : Nat → Byte} {answer : Option Memory} {r : BitVec 64}

/-- What the old nodes have, and the written one gets, all nodes have after a write. -/
theorem write_forall {P : Node → Prop} (h : s.write (some a) buffer length answer = .ok (r, t))
    (hs : ∀ b node, s.nodes.cell b = some node → P node)
    (hnew : ∀ d node go new, s.descriptors.cell a = some d → s.nodes.cell d.node = some node →
      d.mode ≠ .readOnly → node.type ≠ .directory →
      makeRoom node d.rwPosition length answer = .ok (go, new) →
      P (if go then filled new d.rwPosition buffer length else new)) :
    ∀ b node, t.nodes.cell b = some node → P node := by
  obtain ⟨d, node, hd, hn, hends⟩ := write_ends h
  cases hends with
  | refuses => exact hs
  | copies new hmode htype hroom =>
    exact CellStore.adjust_forall hs fun _ _ => hnew d node true new hd hn hmode htype hroom
  | fails new hmode htype hroom =>
    exact CellStore.adjust_forall hs fun _ _ => hnew d node false new hd hn hmode htype hroom

end Write

/-- What the other operations and the unpacking of empty members keep of the nodes. -/
theorem Keeps.forall {P : Node → Prop} {s t : Vfs} (h : Keeps s t)
    (hsame : ∀ old node : Node, node.fileSize = old.fileSize → node.capacity = old.capacity → P old → P node)
    (hfresh : ∀ node : Node, node.fileSize = 0 → node.capacity = 0 → P node)
    (hs : ∀ a node, s.nodes.cell a = some node → P node) : ∀ a node, t.nodes.cell a = some node → P node := by
  intro a node hn
  rcases h.nodes a node hn with ⟨old, ho, -, hsize, hcapacity⟩ | ⟨-, hsize, hcapacity⟩
  · exact hsame old node hsize hcapacity (hs a old ho)
  · exact hfresh node hsize hcapacity

section Nodes

variable {P : Node → Prop} {literal : Nat → Byte} {s t : Vfs}

/-- A property of the sizes of nodes that new nodes have, and that writes keep, all nodes keep. -/
theorem step_forall {op : Op}
    (hsame : ∀ old node : Node, node.fileSize = old.fileSize → node.capacity = old.capacity → P old → P node)
    (hfresh : ∀ node : Node, node.fileSize = 0 → node.capacity = 0 → P node)
    (hwrite : ∀ a buffer length answer, op = .write (some a) buffer length answer →
      ∀ d node go new, s.descriptors.cell a = some d → s.nodes.cell d.node = some node →
        d.mode ≠ .readOnly → node.type ≠ .directory →
        makeRoom node d.rwPosition length.toNat answer = .ok (go, new) →
        P (if go then filled new d.rwPosition buffer length.toNat else new))
    (hs : ∀ a node, s.nodes.cell a = some node → P node) (h : step literal s op = .ok t) :
    ∀ a node, t.nodes.cell a = some node → P node := by
  cases op with
  | create path type =>
    obtain ⟨r, hr, rfl⟩ := Except.map_eq_ok.mp h
    exact (create_keeps hr).forall hsame hfresh hs
  | openFile path mode =>
    obtain ⟨r, hr, rfl⟩ := Except.map_eq_ok.mp h
    exact (openFile_keeps hr).forall hsame hfresh hs
  | seek fd offset mode => exact (seek_keeps h).forall hsame hfresh hs
  | read fd length =>
    obtain ⟨r, hr, rfl⟩ := Except.map_eq_ok.mp h
    rw [read_nodes hr]
    exact hs
  | write fd buffer length answer =>
    obtain ⟨⟨r, t'⟩, hr, rfl⟩ := Except.map_eq_ok.mp h
    cases fd with
    | none =>
      cases hr
      exact hs
    | some a => exact write_forall hr hs (hwrite a buffer length answer rfl)

end Nodes

theorem makeRoom_capacity {node new : Node} {position length : Nat} {answer : Option Memory} {go : Bool}
    (hc : node.capacity < 2 ^ 64) (hl : length < 2 ^ 64)
    (h : makeRoom node position length answer = .ok (go, new)) : new.capacity < 2 ^ 64 := by
  unfold makeRoom at h
  split at h
  next =>
    cases h
    exact hl
  next =>
    split at h
    next =>
      split at h
      next => cases h
      next capacity hg =>
        split at h
        next =>
          cases h
          exact hc
        next =>
          cases h
          exact growLoop_lt 64 hc hg
    next =>
      cases h
      exact hc

/-- Every capacity is a 64-bit number. -/
def Small (s : Vfs) : Prop := ∀ a node, s.nodes.cell a = some node → node.capacity < 2 ^ 64

theorem treeStep_small {literal : Nat → Byte} {s t : Vfs} {op : TreeOp} (hs : s.Small)
    (h : treeStep literal s op = .ok t) : t.Small := by
  have hsame : ∀ old node : Node, node.fileSize = old.fileSize → node.capacity = old.capacity →
      old.capacity < 2 ^ 64 → node.capacity < 2 ^ 64 := fun old node _ he hlt => he ▸ hlt
  have hfresh : ∀ node : Node, node.fileSize = 0 → node.capacity = 0 → node.capacity < 2 ^ 64 := by
    intro node _ he
    rw [he]
    decide
  cases op with
  | init m answers fuel archive =>
    exact Initramfs.initLoop_invariant (fun _ => True) fuel (fun u v hu hkeep => hkeep.forall hsame hfresh hu)
      (fun u c data size hu _ => CellStore.adjust_forall hu fun old ho => hu c old ho) (Or.inr fun _ => trivial) hs h
  | op op =>
    refine step_forall hsame hfresh ?_ hs h
    intro a buffer length answer _ d node go new _ hn _ _ hroom
    have hnew := makeRoom_capacity (hs _ node hn) length.isLt hroom
    split
    next => exact hnew
    next => exact hnew

theorem mount_small : Small new.mount := by
  intro a node hn
  rw [(Initramfs.mount_unwritten.nodes a node hn).2]
  decide

/-- In every run of archives, operations and writes from the mounted root, the writes whose loop ends are
those whose capacity is enough. -/
theorem writes_end_iff (literal : Nat → Byte) (ops : List TreeOp) :
    Ahead (treeStep literal) (OnWrite Ends) new.mount ops ↔
      Ahead (treeStep literal) (OnWrite Enough) new.mount ops := by
  refine Ahead.congr (fun s op t hs h => treeStep_small hs h) (fun s op hs => ?_) mount_small
  have hsame : ∀ a length, AtLoop Ends s a length ↔ AtLoop Enough s a length :=
    AtLoop.congr fun a node hn needed => ends_iff (hs a node hn)
  simp only [onWrite_iff, hsame]

/-- A file of an archive has bytes but no capacity, so a loop with a byte to add doubles 0 for ever. -/
theorem unpacked_never_ends : ¬∀ (literal : Nat → Byte) (ops : List TreeOp) (s : Vfs),
    run (treeStep literal) new.mount ops = .ok s → ∀ a (length : BitVec 64), AtLoop Ends s a length.toNat := by
  intro h
  obtain ⟨s, hs⟩ : ∃ s, run (treeStep fun _ => 0#8) new.mount
      [.init Initramfs.smallArchive (fun _ => some fun _ => 0#8) 3 4096,
        .op (.openFile [47#8, 100#8, 47#8, 102#8] .readWrite)] = .ok s := ⟨_, rfl⟩
  have hends := h _ _ s hs 0 1#64
  cases hs
  obtain ⟨turns, hturns⟩ := hends _ _ rfl rfl (by decide) (by decide) (by decide)
  obtain ⟨k, -, hk⟩ := (growLoop_reaches_iff turns (by decide)).mp hturns
  have hzero : u64 (0 * 2 ^ k) = 0 := by rw [Nat.zero_mul, u64, Nat.zero_mod]
  have hone : (1 : Nat) ≤ u64 (0 * 2 ^ k) := hk
  omega

/-- The loop of the model stops where the loop of the source does. -/
theorem ends_iff_makeRoom {node : Node} {position length : Nat} (answer : Option Memory)
    (hc : node.capacity < 2 ^ 64) (hz : node.fileSize ≠ 0) :
    Ends (u64 (position + length)) node.capacity ↔ makeRoom node position length answer ≠ .error .timeout := by
  by_cases hfit : u64 (position + length) ≤ node.capacity
  · rw [makeRoom_fits answer hz hfit]
    refine iff_of_true ⟨0, ?_⟩ fun he => by cases he
    rw [growLoop_le 0 hfit]
    exact Option.some_ne_none _
  · have hlt : u64 (position + length) > node.capacity := by omega
    have h64 : Ends (u64 (position + length)) node.capacity ↔
        growLoop (u64 (position + length)) 64 node.capacity ≠ none := by
      refine ⟨fun he => ?_, fun he => ⟨64, he⟩⟩
      obtain ⟨turns, hturns⟩ := he
      obtain ⟨k, -, hk⟩ := (growLoop_reaches_iff turns hc).mp hturns
      exact (growLoop_of_doubling hc (by omega)).mpr ⟨k, hk⟩
    rw [h64, makeRoom, if_neg hz, if_pos hlt]
    cases growLoop (u64 (position + length)) 64 node.capacity with
    | none => exact iff_of_false (fun he => he rfl) fun he => he rfl
    | some capacity =>
      refine iff_of_true (Option.some_ne_none _) ?_
      cases answer with
      | none => exact fun he => by cases he
      | some junk => exact fun he => by cases he

/-- The archives have no regular members with bytes, and no write of no bytes is made to an empty file at a
position other than its start. -/
def Reserves (s : Vfs) : TreeOp → Prop
  | .init m _ fuel archive => Initramfs.EmptyMembers m fuel fuel archive
  | .op (.write (some a) _ length _) => ∀ d node, s.descriptors.cell a = some d →
      s.nodes.cell d.node = some node → node.fileSize = 0 → length.toNat = 0 → d.rwPosition = 0
  | _ => True

/-- Every file with bytes has room for some. -/
def Reserved (s : Vfs) : Prop :=
  ∀ a node, s.nodes.cell a = some node → node.fileSize ≠ 0 → node.capacity ≠ 0

theorem makeRoom_reserved {node new : Node} {position length : Nat} {answer : Option Memory} {go : Bool}
    (hn : node.fileSize ≠ 0 → node.capacity ≠ 0)
    (hfirst : node.fileSize = 0 → length = 0 → position = 0)
    (h : makeRoom node position length answer = .ok (go, new)) :
    (new.fileSize ≠ 0 → new.capacity ≠ 0) ∧ (new.fileSize = 0 → u64 (position + length) = 0) := by
  by_cases hz : node.fileSize = 0
  · rw [makeRoom_first answer hz] at h
    cases h
    refine ⟨id, fun hl => ?_⟩
    have hl' : length = 0 := hl
    rw [hfirst hz hl', hl']
    rfl
  · by_cases hfit : u64 (position + length) ≤ node.capacity
    · rw [makeRoom_fits answer hz hfit] at h
      cases h
      exact ⟨hn, fun he => absurd he hz⟩
    · cases go with
      | false =>
        obtain ⟨-, -, -, rfl, -⟩ := makeRoom_fails h
        exact ⟨hn, fun he => absurd he hz⟩
      | true =>
        obtain ⟨junk, capacity, -, hg, rfl⟩ := makeRoom_grown hz (by omega) h
        have hneed := growLoop_needed 64 hg
        have hpos : capacity ≠ 0 := by omega
        exact ⟨fun _ => hpos, fun he => absurd he hz⟩

theorem treeStep_reserved {literal : Nat → Byte} {s t : Vfs} {op : TreeOp} (hs : s.Reserved)
    (hop : Reserves s op) (h : treeStep literal s op = .ok t) : t.Reserved := by
  have hsame : ∀ old node : Node, node.fileSize = old.fileSize → node.capacity = old.capacity →
      (old.fileSize ≠ 0 → old.capacity ≠ 0) → node.fileSize ≠ 0 → node.capacity ≠ 0 := by
    intro old node hsize hcapacity hold
    rw [hsize, hcapacity]
    exact hold
  have hfresh : ∀ node : Node, node.fileSize = 0 → node.capacity = 0 →
      node.fileSize ≠ 0 → node.capacity ≠ 0 := fun node hsize _ hne => absurd hsize hne
  cases op with
  | init m answers fuel archive =>
    refine Initramfs.initLoop_invariant (· = 0) fuel (fun u v hu hkeep => hkeep.forall hsame hfresh hu) ?_
      (Or.inl ⟨hop, rfl⟩) hs h
    rintro u c data size hu rfl
    exact CellStore.adjust_forall hu fun _ _ hne => absurd rfl hne
  | op op =>
    refine step_forall hsame hfresh ?_ hs h
    rintro a buffer length answer rfl d node go new hd hn - - hroom
    obtain ⟨hnew, hempty⟩ := makeRoom_reserved (hs _ node hn) (hop d node hd hn) hroom
    split
    next =>
      intro hne
      refine hnew fun hz => hne ?_
      unfold filled
      simp only [hempty hz, hz]
      rfl
    next => exact hnew

/-- So with such archives and writes, the loops end whenever the size they need is at most half of the
address space. -/
theorem reserved_writes_end (literal : Nat → Byte) {ops : List TreeOp}
    (h : Ahead (treeStep literal) (fun s op => Reserves s op ∧ OnWrite (fun needed _ => needed ≤ 2 ^ 63) s op)
      new.mount ops) : Ahead (treeStep literal) (OnWrite Ends) new.mount ops := by
  have hstart : Reserved new.mount := fun a node hn hne =>
    absurd (Initramfs.mount_unwritten.nodes a node hn).1 hne
  refine (writes_end_iff literal ops).mpr (h.of_invariant (fun s op t hs hop ht =>
    treeStep_reserved hs hop.1 ht) (fun s op hs hop => onWrite_iff.mpr ?_) hstart)
  rintro a buffer length answer rfl d node hd hn hmode htype hsize
  exact Or.inr ⟨hs _ node hn hsize, Or.inl (hop.2 d node hd hn hmode htype hsize)⟩

end Vfs

end UmbraOS
