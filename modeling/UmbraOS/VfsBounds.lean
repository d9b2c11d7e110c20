import UmbraOS.Initramfs
import UmbraOS.VfsWrite

namespace UmbraOS

/-- The sizes of a node are ordered as they should be. -/
structure Node.Bounded (node : Node) : Prop where
  size : node.fileSize ≤ node.capacity
  capacity : node.capacity ≤ node.fileData.allocated

namespace Vfs

/-- No byte outside a block was copied, and the sizes of every node are in order. -/
structure Inside (s : Vfs) : Prop where
  accesses : ∀ x ∈ s.accesses, ∀ i < x.length, x.offset + i < x.allocated
  nodes : ∀ a node, s.nodes.cell a = some node → node.Bounded

inductive Op
  | create (path : CString) (type : NodeType)
  | openFile (path : CString) (mode : OpenMode)
  | seek (fd : Option Nat) (offset : BitVec 64) (mode : SeekMode)
  | read (fd : Option Nat) (length : BitVec 64)
  | write (fd : Option Nat) (buffer : Nat → Byte) (length : BitVec 64) (answer : Option Memory)

def step (literal : Nat → Byte) (s : Vfs) : Op → Except Trap Vfs
  | .create path type => (s.create literal path type).map Prod.snd
  | .openFile path mode => (s.openFile path mode).map Prod.snd
  | .seek fd offset mode => s.seek fd offset.toNat mode
  | .read fd length => (s.read fd length.toNat).map fun r => r.2.2
  | .write fd buffer length answer => (s.write fd buffer length.toNat answer).map Prod.snd

/-- A read that passes the checks of `Vfs::read` ends within the buffer. -/
def ReadInside (s : Vfs) (a : Nat) (length : Nat) : Prop :=
  ∀ d node, s.descriptors.cell a = some d → s.nodes.cell d.node = some node →
    d.rwPosition < node.fileSize → d.mode ≠ .writeOnly → node.type = .file →
    d.rwPosition + length ≤ node.fileData.allocated

/-- A write that passes the checks of `Vfs::write` starts at the beginning of an empty file,
or its end has not wrapped; and `new` answers it with memory. -/
def WriteInside (s : Vfs) (a : Nat) (length : Nat) (answered : Bool) : Prop :=
  ∀ d node, s.descriptors.cell a = some d → s.nodes.cell d.node = some node →
    d.mode ≠ .readOnly → node.type = .file →
    (node.fileSize = 0 → d.rwPosition = 0 ∧ (length = 0 ∨ answered = true)) ∧
    (0 < node.fileSize → d.rwPosition + length < 2 ^ 64 ∧
      (node.capacity < d.rwPosition + length →
        (∃ k, d.rwPosition + length ≤ u64 (node.capacity * 2 ^ k)) → answered = true))

def OpInside (s : Vfs) : Op → Prop
  | .read (some a) length => ReadInside s a length.toNat
  | .write (some a) _ length answer => WriteInside s a length.toNat answer.isSome
  | _ => True

def AllInside (literal : Nat → Byte) (s : Vfs) : List Op → Prop
  | [] => True
  | op :: ops => OpInside s op ∧ ∀ t, step literal s op = .ok t → AllInside literal t ops

theorem file_of_ne_directory {type : NodeType} (h : type ≠ .directory) : type = .file := by
  cases type with
  | file => rfl
  | directory => exact absurd rfl h

/-- What `create` does to the nodes there are: they keep their data and sizes. -/
structure Keeps (s t : Vfs) : Prop where
  accesses : t.accesses = s.accesses
  nodes : ∀ a node, t.nodes.cell a = some node →
    (∃ old, s.nodes.cell a = some old ∧ node.fileData = old.fileData ∧
      node.fileSize = old.fileSize ∧ node.capacity = old.capacity) ∨
    node.fileData = .null ∧ node.fileSize = 0 ∧ node.capacity = 0

theorem Keeps.refl (s : Vfs) : Keeps s s :=
  ⟨rfl, fun _ node h => Or.inl ⟨node, h, rfl, rfl, rfl⟩⟩

theorem Keeps.trans {s t u : Vfs} (h : Keeps s t) (h' : Keeps t u) : Keeps s u := by
  refine ⟨h'.accesses.trans h.accesses, ?_⟩
  intro a node hn
  rcases h'.nodes a node hn with ⟨mid, hm, hd, hs, hc⟩ | hnew
  · rw [hd, hs, hc]
    exact h.nodes a mid hm
  · exact Or.inr hnew

theorem Keeps.inside {s t : Vfs} (h : Keeps s t) (hs : Inside s) : Inside t := by
  refine ⟨h.accesses ▸ hs.accesses, ?_⟩
  intro a node hn
  rcases h.nodes a node hn with ⟨old, ho, hd, hsz, hc⟩ | ⟨hd, hsz, hc⟩
  · have hb := hs.nodes a old ho
    exact ⟨by rw [hsz, hc]; exact hb.size, by rw [hd, hc]; exact hb.capacity⟩
  · exact ⟨by rw [hsz, hc], by rw [hd, hc]; exact Nat.zero_le _⟩

theorem addChild_keeps {s : Vfs} {parent : Nat} {name : CString} {type : NodeType}
    {r : Nat × Vfs} (h : s.addChild parent name type = .ok r) : Keeps s r.2 := by
  unfold addChild at h
  obtain ⟨above, habove, h⟩ := Except.bind_eq_ok.mp h
  have hcell := CellStore.read_some_ok.mp habove
  split at h
  next => cases h
  next map hmap =>
    rw [CellStore.modify_live _ hcell, Except.ok_bind] at h
    cases h
    refine ⟨rfl, ?_⟩
    intro a node hn
    simp only [CellStore.adjust_cell, CellStore.alloc_cell] at hn
    by_cases hnew : a = s.nodes.next
    · right
      rw [if_pos hnew] at hn
      split at hn
      next => cases hn; exact ⟨rfl, rfl, rfl⟩
      next => cases hn; exact ⟨rfl, rfl, rfl⟩
    · left
      rw [if_neg hnew] at hn
      split at hn
      next =>
        obtain ⟨old, ho, rfl⟩ := Option.map_eq_some_iff.mp hn
        exact ⟨old, ho, rfl, rfl, rfl⟩
      next => exact ⟨node, hn, rfl, rfl, rfl⟩

theorem createLoop_keeps {literal : Nat → Byte} {type : NodeType} (turns : Nat) {s : Vfs}
    {parent : Nat} {path : CString} {r : Nat × Vfs}
    (h : createLoop literal type turns s parent path = .ok r) : Keeps s r.2 := by
  induction turns generalizing s parent path with
  | zero => cases h; exact Keeps.refl s
  | succ turns ih =>
    unfold createLoop at h
    split at h
    next => cases h; exact Keeps.refl s
    next =>
      obtain ⟨above, _, h⟩ := Except.bind_eq_ok.mp h
      split at h
      next => exact ih h
      next =>
        obtain ⟨⟨node, s'⟩, hadd, h⟩ := Except.bind_eq_ok.mp h
        exact (addChild_keeps hadd).trans (ih h)

theorem create_keeps {literal : Nat → Byte} {s : Vfs} {path : CString} {type : NodeType}
    {r : Option Nat × Vfs} (h : s.create literal path type = .ok r) : Keeps s r.2 := by
  unfold create at h
  split at h
  next => cases h; exact Keeps.refl s
  next =>
    obtain ⟨⟨node, s'⟩, hloop, h⟩ := Except.bind_eq_ok.mp h
    cases h
    exact createLoop_keeps _ hloop

theorem openFile_keeps {s : Vfs} {path : CString} {mode : OpenMode} {r : Option Nat × Vfs}
    (h : s.openFile path mode = .ok r) : Keeps s r.2 := by
  unfold openFile at h
  obtain ⟨node, _, h⟩ := Except.bind_eq_ok.mp h
  cases node with
  | none => cases h; exact Keeps.refl s
  | some node => cases h; exact ⟨rfl, (Keeps.refl s).nodes⟩

theorem seek_keeps {s t : Vfs} {fd : Option Nat} {offset : Nat} {mode : SeekMode}
    (h : s.seek fd offset mode = .ok t) : Keeps s t := by
  cases fd with
  | none => cases h; exact Keeps.refl s
  | some a =>
    obtain ⟨position, rfl⟩ := seek_ends h
    exact ⟨rfl, (Keeps.refl s).nodes⟩

theorem read_inside {s : Vfs} {fd : Option Nat} {length : Nat}
    {r : BitVec 64 × Option (Nat → Byte) × Vfs} (hs : Inside s)
    (hop : ∀ a, fd = some a → ReadInside s a length) (h : s.read fd length = .ok r) :
    Inside r.2.2 := by
  cases fd with
  | none => cases h; exact hs
  | some a =>
    obtain ⟨d, node, hd, hn, hends⟩ := read_ends h
    cases hends with
    | fails => exact hs
    | copies hbefore hmode htype =>
      have hfits := hop a rfl d node hd hn hbefore hmode (file_of_ne_directory htype)
      have hread : Inside (s.tmpfsRead node d.rwPosition length).2 := by
        refine ⟨?_, hs.nodes⟩
        intro x hx
        rcases List.mem_cons.mp hx with rfl | hx
        · intro i hi
          simp only at hi ⊢
          omega
        · exact hs.accesses x hx
      simp only
      split
      next => exact hread
      next => exact ⟨hread.accesses, hread.nodes⟩

theorem filled_bounded {node : Node} {position length : Nat} (buffer : Nat → Byte)
    (h : node.Bounded) (hp : u64 (position + length) ≤ node.capacity) :
    (filled node position buffer length).Bounded := by
  have hsize := h.size
  refine ⟨?_, ?_⟩
  · unfold filled
    simp only
    split <;> omega
  · unfold filled
    simp only [copyTo_allocated]
    exact h.capacity

/-- The buffer of a write that goes on has room for it. -/
theorem makeRoom_bounded {node node' : Node} {position length : Nat} {answer : Option Memory}
    (hb : node.Bounded) (hl : length < 2 ^ 64)
    (hempty : node.fileSize = 0 → position = 0 ∧ (length = 0 ∨ answer.isSome = true))
    (hend : 0 < node.fileSize → position + length < 2 ^ 64)
    (h : makeRoom node position length answer = .ok (true, node')) :
    node'.Bounded ∧ u64 (position + length) ≤ node'.capacity ∧
      position + length ≤ node'.fileData.allocated := by
  by_cases hz : node.fileSize = 0
  · obtain ⟨rfl, hans⟩ := hempty hz
    rw [makeRoom_first answer hz] at h
    cases h
    have hu : u64 (0 + length) = length := by rw [Nat.zero_add, u64_of_lt hl]
    have hroom : length ≤ (FileData.ofNew length answer).allocated := by
      rcases hans with rfl | hans
      · exact Nat.zero_le _
      · obtain ⟨junk, rfl⟩ := Option.isSome_iff_exists.mp hans
        exact le_refl _
    refine ⟨⟨le_refl _, hroom⟩, ?_, ?_⟩
    · rw [hu]
    · rw [Nat.zero_add]
      exact hroom
  · have hsum := hend (by omega)
    by_cases hfit : u64 (position + length) ≤ node.capacity
    · rw [makeRoom_fits answer hz hfit] at h
      cases h
      have hc := hb.capacity
      refine ⟨hb, hfit, ?_⟩
      rw [u64_of_lt hsum] at hfit
      omega
    · have hgt : u64 (position + length) > node.capacity := by omega
      rw [makeRoom, if_neg hz, if_pos hgt] at h
      split at h
      next => cases h
      next capacity hg =>
        split at h
        next => cases h
        next junk =>
          cases h
          have hneed := growLoop_needed 64 hg
          have hsize := hb.size
          refine ⟨⟨?_, le_refl _⟩, hneed, ?_⟩
          · simp only
            omega
          · rw [u64_of_lt hsum] at hneed
            exact hneed

theorem write_inside {s t : Vfs} {fd : Option Nat} {buffer : Nat → Byte} {length : Nat}
    {answer : Option Memory} {r : BitVec 64} (hs : Inside s) (hl : length < 2 ^ 64)
    (hop : ∀ a, fd = some a → WriteInside s a length answer.isSome)
    (h : s.write fd buffer length answer = .ok (r, t)) : Inside t := by
  cases fd with
  | none => cases h; exact hs
  | some a =>
    obtain ⟨d, node, hd, hn, hends⟩ := write_ends h
    cases hends with
    | refuses => exact hs
    | copies new hmode htype hroom =>
      obtain ⟨hempty, hrest⟩ := hop a rfl d node hd hn hmode (file_of_ne_directory htype)
      have hb := hs.nodes d.node node hn
      obtain ⟨hb', hfit, hend⟩ := makeRoom_bounded hb hl hempty (fun hz => (hrest hz).1) hroom
      refine ⟨?_, ?_⟩
      · intro x hx
        rcases List.mem_cons.mp hx with rfl | hx
        · intro i hi
          simp only at hi ⊢
          omega
        · exact hs.accesses x hx
      · -- an update of the written node leaves the others as they are
        exact CellStore.adjust_forall hs.nodes fun _ _ => filled_bounded buffer hb' hfit
    | fails new hmode htype hroom =>
      -- the loop ended, so `new` was called, and it answers with memory
      exfalso
      obtain ⟨-, hrest⟩ := hop a rfl d node hd hn hmode (file_of_ne_directory htype)
      obtain ⟨hz, hlt, hgrow, _, hnone⟩ := makeRoom_fails hroom
      obtain ⟨hsum, hans⟩ := hrest hz
      rw [u64_of_lt hsum] at hlt hgrow
      have hreach := (growLoop_of_doubling (by omega) (by omega)).mp hgrow
      rw [hnone] at hans
      exact Bool.noConfusion (hans hlt hreach)

theorem step_inside {literal : Nat → Byte} {s t : Vfs} {op : Op} (hs : Inside s)
    (hop : OpInside s op) (h : step literal s op = .ok t) : Inside t := by
  cases op with
  | create path type =>
    obtain ⟨r, hr, rfl⟩ := Except.map_eq_ok.mp h
    exact (create_keeps hr).inside hs
  | openFile path mode =>
    obtain ⟨r, hr, rfl⟩ := Except.map_eq_ok.mp h
    exact (openFile_keeps hr).inside hs
  | seek fd offset mode => exact (seek_keeps h).inside hs
  | read fd length =>
    obtain ⟨r, hr, rfl⟩ := Except.map_eq_ok.mp h
    refine read_inside hs ?_ hr
    rintro a rfl
    exact hop
  | write fd buffer length answer =>
    obtain ⟨⟨r, t'⟩, hr, rfl⟩ := Except.map_eq_ok.mp h
    refine write_inside hs length.isLt ?_ hr
    rintro a rfl
    exact hop

theorem run_inside {literal : Nat → Byte} {s t : Vfs} {ops : List Op} (hs : Inside s)
    (hops : AllInside literal s ops) (h : run (step literal) s ops = .ok t) : Inside t := by
  induction ops generalizing s with
  | nil => cases h; exact hs
  | cons op ops ih =>
    obtain ⟨hop, hrest⟩ := hops
    obtain ⟨u, hu, ht⟩ := run_cons_ok.mp h
    exact ih (step_inside hs hop hu) (hrest u hu) ht

end Vfs

namespace Initramfs

/-- The regular members the loop meets are empty files. -/
def EmptyMembers (m : Memory) (fuel : Nat) : Nat → Nat → Prop
  | 0, _ => True
  | turns + 1, archive => isHeader m archive = true → ∀ bytes, size m fuel archive = .ok bytes →
      (typeFlag m archive = ustarTypeNormal → bytes = 0) ∧
      EmptyMembers m fuel turns (next archive bytes)

/-- No node holds a byte or room for one, as it is before the first write. -/
structure Unwritten (s : Vfs) : Prop where
  accesses : s.accesses = []
  nodes : ∀ a node, s.nodes.cell a = some node → node.fileSize = 0 ∧ node.capacity = 0

theorem Unwritten.inside {s : Vfs} (h : Unwritten s) : Vfs.Inside s := by
  refine ⟨by simp [h.accesses], ?_⟩
  intro a node hn
  obtain ⟨hs, hc⟩ := h.nodes a node hn
  exact ⟨by omega, by omega⟩

theorem Unwritten.keeps {s t : Vfs} (h : Unwritten s) (hk : Vfs.Keeps s t) : Unwritten t := by
  refine ⟨hk.accesses.trans h.accesses, ?_⟩
  intro a node hn
  rcases hk.nodes a node hn with ⟨old, ho, _, hs, hc⟩ | ⟨_, hs, hc⟩
  · rw [hs, hc]
    exact h.nodes a old ho
  · exact ⟨hs, hc⟩

theorem mount_unwritten : Unwritten Vfs.new.mount := by
  refine ⟨rfl, ?_⟩
  intro a node hn
  simp only [Vfs.mount, CellStore.alloc_cell] at hn
  split at hn
  next => cases hn; exact ⟨rfl, rfl⟩
  next => cases hn

section Loop

variable {literal : Nat → Byte} {m : Memory} {answers : Nat → Option Memory} {fuel archive : Nat} {s t : Vfs}

/-- A member that is added leaves the data and the sizes that there are, or it is a regular one and a file
gets its bytes and its size. -/
theorem addMember_cases {bytes : BitVec 64} {answer : Option Memory}
    (h : addMember literal m fuel s archive bytes answer = .ok t) : Vfs.Keeps s t ∨
      typeFlag m archive = ustarTypeNormal ∧ ∃ u c data, Vfs.Keeps s u ∧ t = { u with
        nodes := u.nodes.adjust c fun n => { n with fileData := data, fileSize := bytes.toNat } } := by
  unfold addMember at h
  split at h
  next htype =>
    obtain ⟨name, -, h⟩ := Except.bind_eq_ok.mp h
    obtain ⟨⟨node, u⟩, hc, h⟩ := Except.bind_eq_ok.mp h
    obtain ⟨data, -, h⟩ := Except.bind_eq_ok.mp h
    obtain ⟨nodes, hn, h⟩ := Except.bind_eq_ok.mp h
    obtain ⟨c, old, -, -, rfl⟩ := CellStore.modify_eq_ok.mp hn
    cases h
    exact Or.inr ⟨htype, u, c, data, Vfs.create_keeps hc, rfl⟩
  next =>
    split at h
    next =>
      obtain ⟨name, -, h⟩ := Except.bind_eq_ok.mp h
      obtain ⟨r, hc, h⟩ := Except.bind_eq_ok.mp h
      cases h
      exact Or.inl (Vfs.create_keeps hc)
    next =>
      cases h
      exact Or.inl (Vfs.Keeps.refl s)

/-- What `create` keeps, and the bytes and the size of a regular member do, the unpacking of an archive
keeps; where all its regular members are empty, no other size is set. -/
theorem initLoop_invariant {inv : Vfs → Prop} (allowed : BitVec 64 → Prop) (turns : Nat)
    (hkeeps : ∀ s t, inv s → Vfs.Keeps s t → inv t)
    (hset : ∀ u c data size, inv u → allowed size → inv { u with
      nodes := u.nodes.adjust c fun n => { n with fileData := data, fileSize := size.toNat } })
    (hsizes : EmptyMembers m fuel turns archive ∧ allowed 0 ∨ ∀ size, allowed size)
    (hs : inv s) (h : initLoop literal m answers fuel turns s archive = .ok t) : inv t := by
  induction turns generalizing s archive with
  | zero =>
    by_cases hhead : isHeader m archive = true
    · rw [initLoop, if_pos hhead] at h
      cases h
    · rw [initLoop, if_neg hhead] at h
      cases h
      exact hs
  | succ turns ih =>
    by_cases hhead : isHeader m archive = true
    · rw [initLoop, if_pos hhead] at h
      obtain ⟨bytes, hsize, h⟩ := Except.bind_eq_ok.mp h
      obtain ⟨u, hadd, h⟩ := Except.bind_eq_ok.mp h
      refine ih (hsizes.imp_left fun hmembers => ⟨(hmembers.1 hhead bytes hsize).2, hmembers.2⟩) ?_ h
      rcases addMember_cases hadd with hkeep | ⟨htype, v, c, data, hkeep, rfl⟩
      · exact hkeeps s u hs hkeep
      · refine hset v c data bytes (hkeeps s v hs hkeep) ?_
        rcases hsizes with ⟨hmembers, hzero⟩ | hall
        · rw [(hmembers hhead bytes hsize).1 htype]
          exact hzero
        · exact hall bytes
    · rw [initLoop, if_neg hhead] at h
      cases h
      exact hs

theorem initLoop_unwritten (turns : Nat) (hs : Unwritten s) (hempty : EmptyMembers m fuel turns archive)
    (h : initLoop literal m answers fuel turns s archive = .ok t) : Unwritten t := by
  refine initLoop_invariant (· = 0) turns (fun s t hs hk => hs.keeps hk) ?_ (Or.inl ⟨hempty, rfl⟩) hs h
  rintro u c data size hu rfl
  exact ⟨hu.accesses, CellStore.adjust_forall (P := fun node : Node => node.fileSize = 0 ∧ node.capacity = 0)
    hu.nodes fun old ho => ⟨rfl, (hu.nodes c old ho).2⟩⟩

end Loop

end Initramfs

namespace Vfs

/-- From the mounted root and an archive of empty files on, a run whose reads and writes meet
the condition copies no byte outside a block, and keeps the sizes of every node in order. -/
theorem run_stays_inside {literal : Nat → Byte} {m : Memory} {answers : Nat → Option Memory}
    {fuel archive : Nat} {s t : Vfs} {ops : List Op}
    (hinit : Initramfs.init literal m answers fuel new.mount archive = .ok s)
    (hempty : Initramfs.EmptyMembers m fuel fuel archive) (hops : AllInside literal s ops)
    (h : run (step literal) s ops = .ok t) : Inside t :=
  run_inside (Initramfs.initLoop_unwritten fuel Initramfs.mount_unwritten hempty hinit).inside hops h

/-- A new file, opened and written once. -/
def oneByte : List Op :=
  [.create [97#8] .file, .openFile [97#8] .readWrite,
    .write (some 0) (fun _ => 1#8) 1#64 (some fun _ => 0#8)]

/-- The header of an empty file `a`, and zeros behind it. -/
def emptyFileArchive : Memory := fun x =>
  if x = 0 then 97#8 else if x = 124 ∨ x = 156 then 48#8
  else if 257 ≤ x ∧ x < 262 then Initramfs.ustar (x - 257) else 0#8

theorem emptyFileArchive_init {s : Vfs} (h : Initramfs.addMember (fun _ => 0#8) emptyFileArchive 1
      new.mount 0 0#64 (some fun _ => 0#8) = .ok s) :
    Initramfs.init (fun _ => 0#8) emptyFileArchive (fun _ => some fun _ => 0#8) 1 new.mount 0 =
      .ok s := by
  have hfirst : Initramfs.isHeader emptyFileArchive 0 = true := by decide
  have hlast : Initramfs.isHeader emptyFileArchive (Initramfs.next 0 0#64) = false := by decide
  have hsize : Initramfs.size emptyFileArchive 1 0 = .ok 0#64 := rfl
  rw [Initramfs.init, Initramfs.initLoop, if_pos hfirst, hsize, Except.ok_bind, h, Except.ok_bind,
    Initramfs.initLoop, hlast, if_neg Bool.false_ne_true]

/-- The file is opened, a byte is written and read back. -/
def writeAndRead : List Op :=
  [.openFile [97#8] .readWrite, .write (some 0) (fun _ => 1#8) 1#64 (some fun _ => 0#8),
    .seek (some 0) 0#64 .set, .read (some 0) 1#64]

theorem writeAndRead_stays_inside : ∃ s t,
    Initramfs.init (fun _ => 0#8) emptyFileArchive (fun _ => some fun _ => 0#8) 1 new.mount 0 = .ok s ∧
    run (step fun _ => 0#8) s writeAndRead = .ok t ∧ Inside t := by
  obtain ⟨s, t, hadd, hrun, hready⟩ : ∃ s t,
      Initramfs.addMember (fun _ => 0#8) emptyFileArchive 1 new.mount 0 0#64 (some fun _ => 0#8) =
        .ok s ∧
      run (step fun _ => 0#8) s writeAndRead = .ok t ∧ AllInside (fun _ => 0#8) s writeAndRead := by
    refine ⟨_, _, rfl, rfl, trivial, fun s₁ h₁ => ⟨?_, fun s₂ h₂ => ⟨trivial, fun s₃ h₃ => ⟨?_, ?_⟩⟩⟩⟩
    · cases h₁
      intro d node hd hn _ _
      cases hd
      cases hn
      exact ⟨fun _ => ⟨rfl, Or.inr rfl⟩, fun h => absurd h (by decide)⟩
    · cases h₁
      cases h₂
      cases h₃
      intro d node hd hn _ _ _
      cases hd
      cases hn
      decide
    · exact fun _ _ => trivial
  have hempty : Initramfs.EmptyMembers emptyFileArchive 1 1 0 := by
    intro _ bytes hbytes
    cases hbytes
    exact ⟨fun _ => rfl, trivial⟩
  have hinit := emptyFileArchive_init hadd
  exact ⟨s, t, hinit, hrun, run_stays_inside hinit hempty hready hrun⟩

/-- A read of two bytes at the start of a file of one byte. -/
theorem long_read_leaves_buffer :
    ∃ t, run (step fun _ => 0#8) new.mount
        (oneByte ++ [.seek (some 0) 0#64 .set, .read (some 0) 2#64]) = .ok t ∧ ¬Inside t := by
  refine ⟨_, rfl, fun h => ?_⟩
  have hlast := h.accesses ⟨0, 2, 1⟩ (List.mem_cons_self ..) 1 (by decide)
  exact absurd hlast (by decide)

end Vfs

end UmbraOS
