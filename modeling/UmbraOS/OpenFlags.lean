import UmbraOS.PathCalls
import UmbraOS.VfsGrowth
import UmbraOS.VfsRead

namespace UmbraOS

/-- The flags of `open` that the kernel takes from the headers of the C library: two access modes, which are
different values under the mask `O_ACCMODE`. -/
structure OpenFlags where
  rdonly : BitVec 32
  wronly : BitVec 32
  accMode : BitVec 32
  directory : BitVec 32
  distinct : rdonly ≠ wronly
  rdonly_mode : rdonly &&& accMode = rdonly
  wronly_mode : wronly &&& accMode = wronly

/-- The mode that `sys_open` and `sys_openat` choose: all flag words but two are for reading and writing. -/
def OpenFlags.openMode (abi : OpenFlags) (flags : BitVec 32) : OpenMode :=
  if flags = abi.rdonly then .readOnly
  else if flags = abi.wronly then .writeOnly
  else .readWrite

/-- A call on a descriptor. Without a mode, the argument `whence` of `sys_seek` is not supported. -/
inductive FdCall
  | sysRead (length : BitVec 64)
  | sysWrite (buffer : Nat → Byte) (length : BitVec 64) (answer : Option Memory)
  | sysSeek (offset : BitVec 64) (whence : Option SeekMode)

namespace Vfs

/-- The bytes that a call on the descriptor at `a` puts into the buffer of its caller, and the state after
it. -/
def fdCall (a : Nat) (s : Vfs) : FdCall → Except Trap (List Byte × Vfs)
  | .sysRead length => (s.read (some a) length.toNat).map fun r => (delivered length.toNat r.2.1, r.2.2)
  | .sysWrite buffer length answer => (s.write (some a) buffer length.toNat answer).map fun r => ([], r.2)
  | .sysSeek _ none => .ok ([], s)
  | .sysSeek offset (some mode) => (s.seek (some a) offset.toNat mode).map fun t => ([], t)

def fdStep (a : Nat) (s : Vfs) (call : FdCall) : Except Trap Vfs := (fdCall a s call).map Prod.snd

/-- Every file has the content and the size that it had. -/
def SameFiles (s t : Vfs) : Prop := ∀ n node, s.nodes.cell n = some node →
  ∃ node', t.nodes.cell n = some node' ∧ node'.fileSize = node.fileSize ∧ ∀ i, node'.byte i = node.byte i

/-- No sequence of calls on the descriptor changes a file. -/
def NeverChanges (s : Vfs) (a : Nat) : Prop := ∀ calls t, run (fdStep a) s calls = .ok t → SameFiles s t

/-- No read that follows a sequence of calls on the descriptor delivers a byte. -/
def NeverDelivers (s : Vfs) (a : Nat) : Prop := ∀ calls t, run (fdStep a) s calls = .ok t →
  ∀ length r, fdCall a t (.sysRead length) = .ok r → r.1 = []

end Vfs

/-- What the access mode of a flag word promises about every descriptor that the two system calls open with
it. -/
def OpenFlags.Law (abi : OpenFlags) (flags : BitVec 32) : Prop :=
  ∀ (t t' : PathState) (path : CString) (fd : Nat),
    (t.sysOpen path (abi.openMode flags) = .ok (.ok fd, t') ∨ ∃ cwd fileMode,
      t.sysOpenat cwd path (abi.openMode flags) (flags &&& abi.directory ≠ 0#32) fileMode = .ok (.ok fd, t')) →
    (flags &&& abi.accMode = abi.rdonly → t'.vfs.NeverChanges fd) ∧
    (flags &&& abi.accMode = abi.wronly → t'.vfs.NeverDelivers fd)

namespace Vfs

section Calls

variable {a : Nat} {s t : Vfs} {d : FileDescriptor} {mode : OpenMode}

/-- The descriptor at `a` was opened in a mode. -/
def OpenedIn (mode : OpenMode) (s : Vfs) (a : Nat) : Prop :=
  ∃ d, s.descriptors.cell a = some d ∧ d.mode = mode

theorem OpenedIn.of_same (h : s.OpenedIn mode a) (hsame : t.descriptors = s.descriptors) : t.OpenedIn mode a := by
  obtain ⟨d, hd, hmode⟩ := h
  refine ⟨d, ?_, hmode⟩
  rw [hsame]
  exact hd

theorem OpenedIn.move (h : s.OpenedIn mode a) {position : FileDescriptor → Nat}
    (hset : t.descriptors = s.descriptors.adjust a fun d => { d with rwPosition := position d }) :
    t.OpenedIn mode a := by
  obtain ⟨d, hd, hmode⟩ := h
  refine ⟨{ d with rwPosition := position d }, ?_, hmode⟩
  rw [hset]
  exact CellStore.adjust_cell_self _ hd

/-- No call on a descriptor changes the mode that it was opened in. -/
theorem fdStep_openedIn {call : FdCall} (hs : s.OpenedIn mode a) (h : fdStep a s call = .ok t) :
    t.OpenedIn mode a := by
  obtain ⟨r, hr, rfl⟩ := Except.map_eq_ok.mp h
  cases call with
  | sysRead length =>
    obtain ⟨q, hq, rfl⟩ := Except.map_eq_ok.mp hr
    obtain ⟨d, node, -, -, hends⟩ := read_ends hq
    cases hends with
    | fails => exact hs
    | copies =>
      simp only
      split
      next => exact hs.of_same rfl
      next => exact hs.move rfl
  | sysWrite buffer length answer =>
    obtain ⟨q, hq, rfl⟩ := Except.map_eq_ok.mp hr
    obtain ⟨d, node, -, -, hends⟩ := write_ends hq
    cases hends with
    | refuses => exact hs
    | copies => exact hs.move rfl
    | fails => exact hs.of_same rfl
  | sysSeek offset whence =>
    cases whence with
    | none =>
      cases hr
      exact hs
    | some seekMode =>
      obtain ⟨q, hq, rfl⟩ := Except.map_eq_ok.mp hr
      obtain ⟨position, rfl⟩ := seek_ends hq
      exact hs.move rfl

/-- On a descriptor for reading only, no call writes to a node. -/
theorem fdStep_readOnly {call : FdCall} (hs : s.OpenedIn .readOnly a) (h : fdStep a s call = .ok t) :
    t.nodes = s.nodes := by
  obtain ⟨r, hr, rfl⟩ := Except.map_eq_ok.mp h
  cases call with
  | sysRead length =>
    obtain ⟨q, hq, rfl⟩ := Except.map_eq_ok.mp hr
    exact read_nodes hq
  | sysWrite buffer length answer =>
    obtain ⟨q, hq, rfl⟩ := Except.map_eq_ok.mp hr
    obtain ⟨d', hd', hreadOnly⟩ := hs
    obtain ⟨d, node, hd, -, hends⟩ := write_ends hq
    cases hd.symm.trans hd'
    cases hends with
    | refuses => rfl
    | copies new hmode => exact absurd hreadOnly hmode
    | fails new hmode => exact absurd hreadOnly hmode
  | sysSeek offset whence =>
    cases whence with
    | none =>
      cases hr
      rfl
    | some seekMode =>
      obtain ⟨q, hq, rfl⟩ := Except.map_eq_ok.mp hr
      obtain ⟨position, rfl⟩ := seek_ends hq
      rfl

theorem OpenedIn.neverChanges (hs : s.OpenedIn .readOnly a) : s.NeverChanges a := by
  intro calls t hrun
  have hkeep : ∀ u call v, (u.nodes = s.nodes ∧ u.OpenedIn .readOnly a) → fdStep a u call = .ok v →
      v.nodes = s.nodes ∧ v.OpenedIn .readOnly a := fun u call v hu hv =>
    ⟨(fdStep_readOnly hu.2 hv).trans hu.1, fdStep_openedIn hu.2 hv⟩
  have hsame := run_invariant hkeep ⟨rfl, hs⟩ hrun
  intro n node hn
  rw [hsame.1]
  exact ⟨node, hn, rfl, fun _ => rfl⟩

theorem OpenedIn.neverDelivers (hs : s.OpenedIn .writeOnly a) : s.NeverDelivers a := by
  intro calls t hrun length r hr
  obtain ⟨d, hd, hmode⟩ := run_invariant (fun u call v hu hv => fdStep_openedIn hu hv) hs hrun
  obtain ⟨q, hq, rfl⟩ := Except.map_eq_ok.mp hr
  obtain ⟨d', node, hd', -, hends⟩ := read_ends hq
  cases hd.symm.trans hd'
  cases hends with
  | fails => rfl
  | copies _ hnot => exact absurd hmode hnot

theorem openFile_openedIn {path : CString} {fd : Nat} (h : s.openFile path mode = .ok (some fd, t)) :
    t.OpenedIn mode fd := by
  unfold openFile at h
  obtain ⟨node, -, h⟩ := Except.bind_eq_ok.mp h
  cases node with
  | none => cases h
  | some node =>
    cases h
    exact ⟨_, CellStore.alloc_cell_self _ _, rfl⟩

end Calls

end Vfs

namespace PathState

variable {t t' : PathState} {path : CString} {mode : OpenMode} {fd : Nat}

theorem sysOpen_openedIn (h : t.sysOpen path mode = .ok (.ok fd, t')) : t'.vfs.OpenedIn mode fd := by
  unfold sysOpen at h
  obtain ⟨⟨result, vfs⟩, hopen, h⟩ := Except.bind_eq_ok.mp h
  cases result with
  | none => cases h
  | some a =>
    cases h
    exact Vfs.openFile_openedIn hopen

theorem sysOpenat_openedIn {cwd directory : Bool} {fileMode : Nat}
    (h : t.sysOpenat cwd path mode directory fileMode = .ok (.ok fd, t')) : t'.vfs.OpenedIn mode fd := by
  unfold sysOpenat at h
  split at h
  next => cases h
  next =>
    split at h
    next => cases h
    next =>
      obtain ⟨⟨result, vfs⟩, hopen, h⟩ := Except.bind_eq_ok.mp h
      cases result with
      | none => cases h
      | some a =>
        obtain ⟨d, -, h⟩ := Except.bind_eq_ok.mp h
        obtain ⟨node, -, h⟩ := Except.bind_eq_ok.mp h
        split at h
        next => cases h
        next =>
          cases h
          exact Vfs.openFile_openedIn hopen

end PathState

namespace OpenFlags

variable {abi : OpenFlags} {flags : BitVec 32}

/-- The tree with the empty file `f`. -/
theorem oneFile_built : ∃ s : Vfs, s.Built (fun _ => 0#8) ∧ ∃ t', (⟨s, [CString.slash]⟩ : PathState).sysOpen
    [102#8] .readWrite = .ok (.ok 0, t') ∧ ¬t'.vfs.NeverChanges 0 ∧ ¬t'.vfs.NeverDelivers 0 := by
  obtain ⟨s, hs⟩ : ∃ s, Vfs.new.mount.create (fun _ => 0#8) [102#8] .file = .ok (some 1, s) := ⟨_, rfl⟩
  have hbuilt : s.Built (fun _ => 0#8) := .create (.mount .new) hs
  cases hs
  refine ⟨_, hbuilt, _, rfl, fun h => ?_, fun h => ?_⟩
  · obtain ⟨node, hnode, hsize, -⟩ := h [.sysWrite (fun _ => 7#8) 1#64 (some fun _ => 0#8)] _ rfl 1 _ rfl
    cases hnode
    exact absurd hsize (by decide)
  · have hread := h [.sysWrite (fun _ => 7#8) 1#64 (some fun _ => 0#8), .sysSeek 0#64 (some .set)] _ rfl 1#64 _ rfl
    exact absurd hread (by decide)

/-- A flag word with more flags than its access mode opens for reading and writing. -/
theorem openMode_more (hread : flags ≠ abi.rdonly) (hwrite : flags ≠ abi.wronly) :
    abi.openMode flags = .readWrite := by
  unfold openMode
  rw [if_neg hread, if_neg hwrite]

theorem openMode_rdonly : abi.openMode abi.rdonly = .readOnly := if_pos rfl

theorem openMode_wronly : abi.openMode abi.wronly = .writeOnly := by
  unfold openMode
  rw [if_neg abi.distinct.symm, if_pos rfl]

/-- The access modes are obeyed for the flag words that are one of them alone, and for no other with the
same access mode. -/
theorem law_iff (abi : OpenFlags) (flags : BitVec 32) : abi.Law flags ↔
    (flags &&& abi.accMode = abi.rdonly → flags = abi.rdonly) ∧
    (flags &&& abi.accMode = abi.wronly → flags = abi.wronly) := by
  constructor
  · intro h
    obtain ⟨s, -, t', hopen, hchanges, hdelivers⟩ := oneFile_built
    have hlaw : abi.openMode flags = .readWrite → ¬flags &&& abi.accMode = abi.rdonly ∧
        ¬flags &&& abi.accMode = abi.wronly := by
      intro hmode
      rw [← hmode] at hopen
      obtain ⟨hread, hwrite⟩ := h _ _ _ _ (Or.inl hopen)
      exact ⟨fun he => hchanges (hread he), fun he => hdelivers (hwrite he)⟩
    constructor
    · intro he
      by_contra hne
      have hother : flags ≠ abi.wronly := by
        rintro rfl
        exact abi.distinct (he.symm.trans abi.wronly_mode)
      exact (hlaw (openMode_more hne hother)).1 he
    · intro he
      by_contra hne
      have hother : flags ≠ abi.rdonly := by
        rintro rfl
        exact abi.distinct (abi.rdonly_mode.symm.trans he)
      exact (hlaw (openMode_more hother hne)).2 he
  · intro h t t' path fd hopen
    have hopened : t'.vfs.OpenedIn (abi.openMode flags) fd := by
      rcases hopen with hopen | ⟨cwd, fileMode, hopen⟩
      · exact PathState.sysOpen_openedIn hopen
      · exact PathState.sysOpenat_openedIn hopen
    constructor
    · intro he
      rw [h.1 he, openMode_rdonly] at hopened
      exact hopened.neverChanges
    · intro he
      rw [h.2 he, openMode_wronly] at hopened
      exact hopened.neverDelivers

/-- The values of Linux. -/
def linux : OpenFlags where
  rdonly := 0#32
  wronly := 1#32
  accMode := 3#32
  directory := 0x10000#32
  distinct := by decide
  rdonly_mode := by decide
  wronly_mode := by decide

/-- A directory flag makes a descriptor for reading one for writing too. -/
theorem directory_flag_writes : ¬∀ (abi : OpenFlags) (flags : BitVec 32), abi.Law flags := by
  intro h
  obtain ⟨s, -, t', hopen, hchanges, -⟩ := oneFile_built
  have hmode : linux.openMode 0x10000#32 = .readWrite := by decide
  rw [← hmode] at hopen
  exact hchanges ((h linux 0x10000#32 _ _ _ _ (Or.inl hopen)).1 (by decide))

end OpenFlags

end UmbraOS
