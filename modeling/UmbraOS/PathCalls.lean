import UmbraOS.FileHandles
import UmbraOS.VfsShape

namespace UmbraOS

/-- What the calls that take a path work on: the file system, and the working directory of the current
task. -/
structure PathState where
  vfs : Vfs
  workingDir : CString

/-- The file a call of `sys_stat` is for: the path is below `AT_FDCWD`, or the number of a descriptor is
given, which may lead to none. -/
inductive StatAt
  | cwd
  | handle (fd : Option Nat)

/-- What `sys_stat` puts into the buffer of the caller. -/
structure Stat where
  type : NodeType
  size : Nat
  inode : Nat

inductive PathCall
  | sysOpen (path : CString) (mode : OpenMode)
  | sysOpenat (cwd : Bool) (path : CString) (mode : OpenMode) (directory : Bool) (fileMode : Nat)
  | sysStat (path : CString)
  | sysMkdir (path : CString)

namespace PathState

/-- The result is the new descriptor, which is then put into the table of the task. -/
def sysOpen (t : PathState) (path : CString) (mode : OpenMode) :
    Except Trap (Except FileError Nat × PathState) := do
  match ← t.vfs.openFile path mode with
  | (none, vfs) => return (.error .ebadf, { t with vfs })
  | (some fd, vfs) => return (.ok fd, { t with vfs })

/-- `cwd` says that the descriptor is `AT_FDCWD`, `directory` is the flag `O_DIRECTORY`. -/
def sysOpenat (t : PathState) (cwd : Bool) (path : CString) (mode : OpenMode) (directory : Bool)
    (fileMode : Nat) : Except Trap (Except FileError Nat × PathState) :=
  if fileMode ≠ 0 then .ok (.error .enosys, t)
  else if !cwd then .ok (.error .enosys, t)
  else do
    -- the absolute path is built before, but `path` is what is opened
    match ← t.vfs.openFile path mode with
    | (none, vfs) => return (.error .ebadf, { t with vfs })
    | (some fd, vfs) =>
      let d ← vfs.descriptors.read (some fd)
      let node ← vfs.nodes.read (some d.node)
      if directory ∧ node.type ≠ .directory then return (.error .enotdir, { t with vfs })
      else return (.ok fd, { t with vfs })

/-- The node that `sys_stat` reads. -/
def statNode (t : PathState) : StatAt → CString → Except Trap (Except FileError (Option Nat))
  | .handle none, _ => .ok (.error .ebadf)
  | .handle (some fd), _ => do
    let d ← t.vfs.descriptors.read (some fd)
    return .ok (some d.node)
  | .cwd, path => do
    let node ← t.vfs.getNode (t.workingDir ++ path)
    return .ok node

def sysStat (t : PathState) (dir : StatAt) (path : CString) : Except Trap (Except FileError Stat) := do
  match ← t.statNode dir path with
  | .error e => return .error e
  | .ok node =>
    let n ← t.vfs.nodes.read node
    return .ok ⟨n.type, n.fileSize, n.inode⟩

def sysChdir (t : PathState) (path : CString) : PathState :=
  { t with workingDir :=
      if path.head? = some CString.slash then path else t.workingDir ++ CString.slash :: path }

def sysMkdir (literal : Nat → Byte) (t : PathState) (path : CString) : Except Trap PathState := do
  let (_, vfs) ← t.vfs.create literal path .directory
  return { t with vfs }

end PathState

namespace Vfs

/-- The components of a path as `get_node` takes them. -/
def namesOf (path : CString) : List CString :=
  CString.components path.length (path.dropWhile (· == CString.slash))

/-- A path names an existing node. -/
def Names (s : Vfs) (path : CString) : Prop :=
  ∃ r c, s.rootMountpoint = some r ∧ s.walk r (namesOf path) = some c

/-- The path that `get_node` follows goes through no file before its last component. -/
def Through (s : Vfs) (path : CString) : Prop :=
  ∀ r, s.rootMountpoint = some r →
    s.ThroughDirectories path.length r (path.dropWhile (· == CString.slash))

theorem getNode_eq_some {s : Vfs} {path : CString} {c : Nat} : s.getNode path = .ok (some c) ↔
    ∃ r, s.rootMountpoint = some r ∧ s.walk r (namesOf path) = some c := by
  unfold getNode
  cases s.rootMountpoint with
  | none =>
    refine iff_of_false (fun h => by cases h) fun h => ?_
    obtain ⟨r, hr, -⟩ := h
    cases hr
  | some root =>
    show getNodeLoop s path.length root _ = _ ↔ _
    rw [getNodeLoop_walk]
    refine ⟨fun h => ⟨root, rfl, h⟩, fun h => ?_⟩
    obtain ⟨r, hr, h⟩ := h
    cases hr
    exact h

/-- The root and all children are nodes, and the directories are the nodes that have children. -/
structure Proper (s : Vfs) : Prop where
  root : ∀ r, s.rootMountpoint = some r → ∃ n, s.nodes.cell r = some n
  child : ∀ a name c, s.child a name = some c → ∃ n, s.nodes.cell c = some n
  kind : ∀ c n, s.nodes.cell c = some n → (n.children ≠ none ↔ n.type = .directory)

section Proper

variable {s : Vfs}

theorem Proper.withChild (h : Proper s) {parent : Nat} {above : Node} {name : CString} {type : NodeType}
    {map : StringHashMap 256 Nat} (hp : s.nodes.cell parent = some above) (hmap : above.children = some map) :
    Proper (s.withChild parent name type map) := by
  have hadd : s.addChild parent name type = .ok (s.nodes.next, s.withChild parent name type map) := by
    rw [addChild_eq name type hp, hmap]
  have hlive : ∀ c n, s.nodes.cell c = some n →
      ∃ m, (s.withChild parent name type map).nodes.cell c = some m := by
    intro c n hn
    obtain ⟨children, hc⟩ := withChild_old hp hn
    exact ⟨_, hc⟩
  refine ⟨fun r hr => ?_, fun a key c hc => ?_, fun c n hn => ?_⟩
  · obtain ⟨n, hn⟩ := h.root r hr
    exact hlive r n hn
  · rw [addChild_child hp hadd] at hc
    rcases Option.or_eq_some_iff.mp hc with hold | ⟨-, hnew⟩
    · obtain ⟨n, hn⟩ := h.child a key c hold
      exact hlive c n hn
    · split at hnew
      next =>
        cases hnew
        exact ⟨_, withChild_new hp⟩
      next => cases hnew
  · rcases withChild_cell hp hn with ⟨-, rfl⟩ | ⟨old, hold, hn', hsame | ⟨hat, hmore⟩⟩
    · cases type with
      | file => exact ⟨fun hne => absurd rfl hne, fun he => by cases he⟩
      | directory => exact ⟨fun _ => rfl, fun _ he => by cases he⟩
    · have hkind := h.kind c old hold
      rw [← hsame] at hkind
      rw [hn']
      exact hkind
    · rw [hat, hp] at hold
      cases hold
      have hdir : above.type = .directory := (h.kind parent above hp).mp (by rw [hmap]; simp)
      rw [hn', hmore]
      exact iff_of_true (fun he => by cases he) hdir

theorem Proper.createLoop {literal : Nat → Byte} {type : NodeType} {turns parent node : Nat} {s' : Vfs}
    {path : CString} (h : Proper s)
    (hs : createLoop literal type turns s parent path = .ok (node, s')) : Proper s' := by
  refine createLoop_invariant (fun h hp _ hadd => ?_) h hs
  obtain ⟨map, hmap, rfl, rfl⟩ := addChild_ok hp hadd
  exact h.withChild hp hmap

theorem Proper.mount (h : Proper s) : Proper s.mount := by
  have hcell : ∀ c n, s.mount.nodes.cell c = some n → (c = s.nodes.next ∧ n.type = .directory ∧
      n.children = some StringHashMap.new) ∨ s.nodes.cell c = some n := by
    intro c n hn
    by_cases hc : c = s.nodes.next
    · rw [hc] at hn
      cases (CellStore.alloc_cell_self s.nodes _).symm.trans hn
      exact Or.inl ⟨hc, rfl, rfl⟩
    · exact Or.inr ((if_neg hc).symm.trans hn)
  refine ⟨fun r hr => ?_, fun a name c hc => ?_, fun c n hn => ?_⟩
  · cases hr
    exact ⟨_, CellStore.alloc_cell_self s.nodes _⟩
  · obtain ⟨n, map, hn, hmap, hget⟩ := child_eq_some.mp hc
    rcases hcell a n hn with ⟨-, -, hempty⟩ | hold
    · cases hmap.symm.trans hempty
      rw [new_get] at hget
      cases hget
    · obtain ⟨m, hm⟩ := h.child a name c (child_eq_some.mpr ⟨n, map, hold, hmap, hget⟩)
      exact ⟨m, CellStore.alloc_cell_of_live _ hm⟩
  · rcases hcell c n hn with ⟨-, htype, hempty⟩ | hold
    · exact iff_of_true (by rw [hempty]; simp) htype
    · exact h.kind c n hold

theorem Proper.mountAt {s' : Vfs} {node : Nat} (h : Proper s) (hm : s.mountAt node = .ok s') :
    Proper s' := by
  obtain ⟨hchild, -, hroot⟩ := mountAt_child hm
  obtain ⟨nodes, hmodify, hm⟩ := Except.bind_eq_ok.mp hm
  obtain ⟨old, hold, rfl⟩ := CellStore.modify_some_ok.mp hmodify
  cases hm
  have hlive : ∀ c n, s.nodes.cell c = some n → ∃ m, (s.nodes.adjust node fun n =>
      (⟨n.name, .directory, n.parent, some StringHashMap.new, n.fileData, n.fileSize, n.capacity,
        s.nextInode⟩ : Node)).cell c = some m := by
    intro c n hn
    rw [CellStore.adjust_cell, hn]
    split
    next => exact ⟨_, rfl⟩
    next => exact ⟨n, rfl⟩
  refine ⟨fun r hr => ?_, fun a name c hc => ?_, fun c n hn => ?_⟩
  · obtain ⟨n, hn⟩ := h.root r hr
    exact hlive r n hn
  · obtain ⟨n, hn⟩ := h.child a name c (hchild a name c hc)
    exact hlive c n hn
  · by_cases hc : c = node
    · rw [hc, CellStore.adjust_cell_self _ hold] at hn
      cases hn
      exact ⟨fun _ => rfl, fun _ he => by cases he⟩
    · rw [CellStore.adjust_cell_ne _ _ hc] at hn
      exact h.kind c n hn

theorem Built.proper {literal : Nat → Byte} (h : Built literal s) : Proper s := by
  induction h with
  | new =>
    refine ⟨fun r hr => ?_, fun a name c hc => ?_, fun c n hn => ?_⟩
    · cases hr
    · cases hc
    · cases hn
  | mount _ ih => exact ih.mount
  | mountAt _ hm ih => exact ih.mountAt hm
  | create _ hc ih =>
    unfold Vfs.create at hc
    split at hc
    next =>
      cases hc
      exact ih
    next root hroot =>
      obtain ⟨⟨node, s₁⟩, hloop, hc⟩ := Except.bind_eq_ok.mp hc
      cases hc
      exact ih.createLoop hloop

theorem Proper.children (h : Proper s) {a : Nat} {n : Node} (hn : s.nodes.cell a = some n) :
    (∃ map, n.children = some map) ∧ n.type = .directory ∨ n.children = none ∧ n.type ≠ .directory := by
  have hkind := h.kind a n hn
  cases hmap : n.children with
  | none =>
    rw [hmap] at hkind
    exact Or.inr ⟨rfl, fun he => absurd rfl (hkind.mpr he)⟩
  | some map =>
    rw [hmap] at hkind
    exact Or.inl ⟨⟨map, rfl⟩, hkind.mp fun he => by cases he⟩

/-- What a turn on a path needs: the node is a directory, and the path goes on from the child. -/
theorem throughDirectories_turn {turns a : Nat} {path : CString} {n : Node} (hne : path ≠ [])
    (hn : s.nodes.cell a = some n) : s.ThroughDirectories (turns + 1) a path ↔
      n.type = .directory ∧ ∀ c, s.child a (CString.component path) = some c →
        s.ThroughDirectories turns c (CString.rest path) := by
  constructor
  · intro h
    obtain ⟨hdir, hdown⟩ := h.resolve_left hne
    exact ⟨hdir n hn, hdown⟩
  · intro h
    refine Or.inr ⟨fun m hm => ?_, h.2⟩
    cases hn.symm.trans hm
    exact h.1

/-- The loop of `get_node` faults exactly below a file. -/
theorem Proper.getNodeLoop_ok_iff (h : Proper s) {turns a : Nat} {path : CString} {n : Node}
    (hn : s.nodes.cell a = some n) :
    (∃ r, s.getNodeLoop turns a path = .ok r) ↔ s.ThroughDirectories turns a path := by
  induction turns generalizing a path n with
  | zero => exact ⟨fun _ => trivial, fun _ => ⟨_, rfl⟩⟩
  | succ turns ih =>
    by_cases hnil : path = []
    · rw [getNodeLoop, if_pos hnil]
      exact ⟨fun _ => Or.inl hnil, fun _ => ⟨_, rfl⟩⟩
    · rw [getNodeLoop, if_neg hnil, CellStore.read_live hn, Except.ok_bind, throughDirectories_turn hnil hn]
      rcases h.children hn with ⟨⟨map, hmap⟩, hdir⟩ | ⟨hnone, hfile⟩
      · have hchild : s.child a (CString.component path) = map.get (CString.component path) := by
          rw [child_of_cell hn, hmap, Option.bind_some]
        rw [hmap]
        simp only
        cases hget : map.get (CString.component path) with
        | none =>
          refine ⟨fun _ => ⟨hdir, fun c hc => ?_⟩, fun _ => ⟨_, rfl⟩⟩
          rw [hchild, hget] at hc
          cases hc
        | some c =>
          obtain ⟨m, hm⟩ := h.child _ _ _ (hchild.trans hget)
          show (∃ r, s.getNodeLoop turns c _ = .ok r) ↔ _
          rw [ih hm]
          refine ⟨fun hc => ⟨hdir, fun c' hc' => ?_⟩, fun hc => hc.2 c (hchild.trans hget)⟩
          cases (hchild.trans hget).symm.trans hc'
          exact hc
      · rw [hnone]
        refine iff_of_false (fun he => ?_) fun hc => hfile hc.1
        obtain ⟨r, hr⟩ := he
        cases hr

/-- So does the loop of `create` when it makes directories. -/
theorem Proper.createLoop_ok_iff (h : Proper s) (literal : Nat → Byte) (turns : Nat) {a : Nat}
    (path : CString) {n : Node} (hn : s.nodes.cell a = some n) :
    (∃ r, Vfs.createLoop literal .directory turns s a path = .ok r) ↔ s.ThroughDirectories turns a path := by
  induction turns generalizing s a path n with
  | zero => exact ⟨fun _ => trivial, fun _ => ⟨_, rfl⟩⟩
  | succ turns ih =>
    by_cases hnil : path = []
    · rw [Vfs.createLoop, if_pos hnil]
      exact ⟨fun _ => Or.inl hnil, fun _ => ⟨_, rfl⟩⟩
    · rw [throughDirectories_turn hnil hn]
      rcases h.children hn with ⟨⟨map, hmap⟩, hdir⟩ | ⟨hnone, hfile⟩
      · cases hc : s.child a (CString.component path) with
        | some c =>
          obtain ⟨m, hm⟩ := h.child _ _ _ hc
          rw [createLoop_found hnil hn hc, ih h _ hm]
          refine ⟨fun ht => ⟨hdir, fun c' hc' => ?_⟩, fun ht => ht.2 c rfl⟩
          cases hc'
          exact ht
        | none =>
          rw [createLoop_missing hnil hn hc, addChild_eq _ _ hn, hmap]
          simp only [Except.ok_bind, ite_self]
          rw [ih (h.withChild hn hmap) _ (withChild_new hn)]
          refine iff_of_true ?_ ⟨hdir, fun c hc' => by cases hc'⟩
          exact throughDirectories_of_childless (withChild_childless hn) (withChild_new hn) (Or.inr rfl)
      · rw [createLoop_below_file hnil hn hnone]
        refine iff_of_false (fun he => ?_) fun hc => hfile hc.1
        obtain ⟨r, hr⟩ := he
        cases hr

theorem Proper.getNode_ok_iff (h : Proper s) (path : CString) :
    (∃ r, s.getNode path = .ok r) ↔ s.Through path := by
  unfold Vfs.getNode Through
  cases hroot : s.rootMountpoint with
  | none => exact iff_of_true ⟨none, rfl⟩ fun r hr => by cases hr
  | some root =>
    obtain ⟨n, hn⟩ := h.root root hroot
    have hloop : (∃ r, s.getNodeLoop path.length root (path.dropWhile (· == CString.slash)) = .ok r) ↔ _ :=
      h.getNodeLoop_ok_iff hn
    refine hloop.trans ⟨fun ht r hr => ?_, fun ht => ht root rfl⟩
    cases hr
    exact ht

theorem Proper.walk_live (h : Proper s) {a c : Nat} {n : Node} {names : List CString}
    (hn : s.nodes.cell a = some n) (hw : s.walk a names = some c) : ∃ m, s.nodes.cell c = some m := by
  induction names generalizing a n with
  | nil =>
    cases hw
    exact ⟨n, hn⟩
  | cons name names ih =>
    obtain ⟨b, hb, hw⟩ := Option.bind_eq_some_iff.mp hw
    obtain ⟨m, hm⟩ := h.child a name b hb
    exact ih hm hw

end Proper

end Vfs

namespace PathState

/-- A call returns, and with an error unless its path names a node; `sys_mkdir` makes the nodes that are
missing. -/
def Resolves (literal : Nat → Byte) (t : PathState) : PathCall → Prop
  | .sysOpen path mode => ∃ r t', t.sysOpen path mode = .ok (r, t') ∧
      (t.vfs.Names path ∨ ∃ e, r = .error e)
  | .sysOpenat cwd path mode directory fileMode =>
    ∃ r t', t.sysOpenat cwd path mode directory fileMode = .ok (r, t') ∧
      (t.vfs.Names path ∨ ∃ e, r = .error e)
  | .sysStat path => ∃ r, t.sysStat .cwd path = .ok r ∧
      (t.vfs.Names (t.workingDir ++ path) ∨ ∃ e, r = .error e)
  | .sysMkdir path => ∃ t', t.sysMkdir literal path = .ok t'

/-- The path of a call goes through no file before its last component; that of `sys_stat` names a node. -/
def Passes (t : PathState) : PathCall → Prop
  | .sysOpen path _ => t.vfs.Through path
  | .sysOpenat cwd path _ _ fileMode => fileMode = 0 → cwd = true → t.vfs.Through path
  | .sysStat path => t.vfs.Names (t.workingDir ++ path)
  | .sysMkdir path => ∀ r, t.vfs.rootMountpoint = some r → t.vfs.ThroughDirectories path.length r path

variable {t : PathState}

/-- What `Vfs::open` makes of the answers of `get_node`. -/
theorem openFile_cases (s : Vfs) (path : CString) (mode : OpenMode) :
    (∃ trap, s.getNode path = .error trap ∧ s.openFile path mode = .error trap) ∨
      (s.getNode path = .ok none ∧ s.openFile path mode = .ok (none, s)) ∨
      ∃ c, s.getNode path = .ok (some c) ∧ s.openFile path mode = .ok (some s.descriptors.next,
        { s with descriptors := s.descriptors.alloc ⟨c, mode, 0⟩ }) := by
  unfold Vfs.openFile
  cases s.getNode path with
  | error trap => exact Or.inl ⟨trap, rfl, rfl⟩
  | ok found =>
    cases found with
    | none => exact Or.inr (Or.inl ⟨rfl, rfl⟩)
    | some c => exact Or.inr (Or.inr ⟨c, rfl, rfl⟩)

theorem names_of_getNode {s : Vfs} {path : CString} {c : Nat} (h : s.getNode path = .ok (some c)) :
    s.Names path := by
  obtain ⟨r, hr, hw⟩ := Vfs.getNode_eq_some.mp h
  exact ⟨r, c, hr, hw⟩

theorem found_live {s : Vfs} (h : s.Proper) {path : CString} {c : Nat}
    (hc : s.getNode path = .ok (some c)) : ∃ n, s.nodes.cell c = some n := by
  obtain ⟨r, hr, hw⟩ := Vfs.getNode_eq_some.mp hc
  obtain ⟨n, hn⟩ := h.root r hr
  exact h.walk_live hn hw

theorem sysOpen_iff (h : t.vfs.Proper) (path : CString) (mode : OpenMode) :
    (∃ r t', t.sysOpen path mode = .ok (r, t') ∧ (t.vfs.Names path ∨ ∃ e, r = .error e)) ↔
      t.vfs.Through path := by
  rw [← h.getNode_ok_iff]
  unfold sysOpen
  rcases openFile_cases t.vfs path mode with ⟨trap, hget, ho⟩ | ⟨hget, ho⟩ | ⟨c, hget, ho⟩
  · rw [ho, hget]
    refine iff_of_false (fun hr => ?_) fun hr => ?_
    · obtain ⟨r, t', hr, -⟩ := hr
      cases hr
    · obtain ⟨r, hr⟩ := hr
      cases hr
  · rw [ho, hget]
    exact iff_of_true ⟨_, _, rfl, Or.inr ⟨_, rfl⟩⟩ ⟨_, rfl⟩
  · rw [ho]
    exact iff_of_true ⟨_, _, rfl, Or.inl (names_of_getNode hget)⟩ ⟨_, hget⟩

/-- `sys_openat` where it comes to open the path. -/
theorem sysOpenat_found (h : t.vfs.Proper) {path : CString} {c : Nat} (mode : OpenMode) (directory : Bool)
    (hget : t.vfs.getNode path = .ok (some c)) : ∃ n r, t.vfs.nodes.cell c = some n ∧
      t.sysOpenat true path mode directory 0 = .ok (r, { t with vfs := { t.vfs with
        descriptors := t.vfs.descriptors.alloc ⟨c, mode, 0⟩ } }) ∧
      r = if directory ∧ n.type ≠ .directory then .error .enotdir
        else .ok t.vfs.descriptors.next := by
  obtain ⟨n, hn⟩ := found_live h hget
  have ho : t.vfs.openFile path mode = .ok (some t.vfs.descriptors.next,
      { t.vfs with descriptors := t.vfs.descriptors.alloc ⟨c, mode, 0⟩ }) := by
    unfold Vfs.openFile
    rw [hget]
    rfl
  refine ⟨n, _, hn, ?_, rfl⟩
  unfold sysOpenat
  simp only [ho, Except.ok_bind, CellStore.read_live (CellStore.alloc_cell_self t.vfs.descriptors _),
    CellStore.read_live hn]
  split
  next hne => exact absurd rfl hne
  next =>
    split
    next hcwd => cases hcwd
    next =>
      split
      next => rfl
      next => rfl

theorem sysOpenat_iff (h : t.vfs.Proper) (cwd : Bool) (path : CString) (mode : OpenMode) (directory : Bool)
    (fileMode : Nat) :
    (∃ r t', t.sysOpenat cwd path mode directory fileMode = .ok (r, t') ∧
      (t.vfs.Names path ∨ ∃ e, r = .error e)) ↔ (fileMode = 0 → cwd = true → t.vfs.Through path) := by
  by_cases hmode : fileMode = 0
  · subst hmode
    cases cwd with
    | false => exact iff_of_true ⟨_, _, rfl, Or.inr ⟨_, rfl⟩⟩ fun _ he => by cases he
    | true =>
      have hpass : ((0 : Nat) = 0 → true = true → t.vfs.Through path) ↔ t.vfs.Through path :=
        ⟨fun hp => hp rfl rfl, fun hp _ _ => hp⟩
      rw [hpass, ← h.getNode_ok_iff]
      rcases openFile_cases t.vfs path mode with ⟨trap, hget, ho⟩ | ⟨hget, ho⟩ | ⟨c, hget, -⟩
      · have hcall : t.sysOpenat true path mode directory 0 = .error trap := by
          unfold sysOpenat
          rw [ho]
          rfl
        rw [hcall, hget]
        refine iff_of_false (fun hr => ?_) fun hr => ?_
        · obtain ⟨r, t', hr, -⟩ := hr
          cases hr
        · obtain ⟨r, hr⟩ := hr
          cases hr
      · have hcall : t.sysOpenat true path mode directory 0 = .ok (.error .ebadf, { t with vfs := t.vfs }) := by
          unfold sysOpenat
          rw [ho]
          rfl
        rw [hcall, hget]
        exact iff_of_true ⟨_, _, rfl, Or.inr ⟨_, rfl⟩⟩ ⟨_, rfl⟩
      · obtain ⟨n, r, -, hcall, -⟩ := sysOpenat_found h mode directory hget
        rw [hcall]
        exact iff_of_true ⟨_, _, rfl, Or.inl (names_of_getNode hget)⟩ ⟨_, hget⟩
  · have hcall : t.sysOpenat cwd path mode directory fileMode = .ok (.error .enosys, t) := if_pos hmode
    rw [hcall]
    exact iff_of_true ⟨_, _, rfl, Or.inr ⟨_, rfl⟩⟩ fun he => absurd he hmode

theorem statNode_cwd (path : CString) : t.statNode .cwd path =
    (t.vfs.getNode (t.workingDir ++ path) >>= fun node => .ok (.ok node)) := rfl

/-- `sys_stat` does not ask whether it has a node. -/
theorem sysStat_found (h : t.vfs.Proper) {path : CString} {c : Nat}
    (hget : t.vfs.getNode (t.workingDir ++ path) = .ok (some c)) : ∃ n, t.vfs.nodes.cell c = some n ∧
      t.sysStat .cwd path = .ok (.ok ⟨n.type, n.fileSize, n.inode⟩) := by
  obtain ⟨n, hn⟩ := found_live h hget
  refine ⟨n, hn, ?_⟩
  unfold sysStat
  rw [statNode_cwd, hget]
  show (t.vfs.nodes.read (some c) >>= _) = _
  rw [CellStore.read_live hn]
  rfl

theorem sysStat_iff (h : t.vfs.Proper) (path : CString) :
    (∃ r, t.sysStat .cwd path = .ok r ∧ (t.vfs.Names (t.workingDir ++ path) ∨ ∃ e, r = .error e)) ↔
      t.vfs.Names (t.workingDir ++ path) := by
  constructor
  · intro hr
    obtain ⟨r, hr, hnames | ⟨e, he⟩⟩ := hr
    · exact hnames
    · rw [he] at hr
      unfold sysStat at hr
      rw [statNode_cwd] at hr
      cases hget : t.vfs.getNode (t.workingDir ++ path) with
      | error trap =>
        rw [hget] at hr
        cases hr
      | ok found =>
        rw [hget] at hr
        cases found with
        | none => cases hr
        | some c => exact names_of_getNode hget
  · intro hnames
    obtain ⟨r, c, hr, hw⟩ := hnames
    have hget := Vfs.getNode_eq_some.mpr ⟨r, hr, hw⟩
    obtain ⟨n, -, hcall⟩ := sysStat_found h hget
    exact ⟨_, hcall, Or.inl ⟨r, c, hr, hw⟩⟩

theorem sysMkdir_eq {root : Nat} (hroot : t.vfs.rootMountpoint = some root) (literal : Nat → Byte)
    (path : CString) : t.sysMkdir literal path =
      (Vfs.createLoop literal .directory path.length t.vfs root path >>= fun r =>
        .ok { t with vfs := r.2 }) := by
  unfold sysMkdir Vfs.create
  rw [hroot]
  simp only
  cases Vfs.createLoop literal .directory path.length t.vfs root path with
  | error trap => rfl
  | ok r => rfl

theorem sysMkdir_iff (h : t.vfs.Proper) (literal : Nat → Byte) (path : CString) :
    (∃ t', t.sysMkdir literal path = .ok t') ↔
      ∀ r, t.vfs.rootMountpoint = some r → t.vfs.ThroughDirectories path.length r path := by
  cases hroot : t.vfs.rootMountpoint with
  | none =>
    refine iff_of_true ⟨t, ?_⟩ fun r hr => by cases hr
    unfold sysMkdir Vfs.create
    rw [hroot]
    rfl
  | some root =>
    obtain ⟨n, hn⟩ := h.root root hroot
    have hthrough : (∀ r, some root = some r → t.vfs.ThroughDirectories path.length r path) ↔
        t.vfs.ThroughDirectories path.length root path := by
      refine ⟨fun hr => hr root rfl, fun hr r he => ?_⟩
      cases he
      exact hr
    rw [hthrough, ← h.createLoop_ok_iff literal path.length path hn, sysMkdir_eq hroot]
    cases Vfs.createLoop literal .directory path.length t.vfs root path with
    | error trap =>
      refine iff_of_false (fun hr => ?_) fun hr => ?_
      · obtain ⟨_, hr⟩ := hr
        cases hr
      · obtain ⟨_, hr⟩ := hr
        cases hr
    | ok r => exact iff_of_true ⟨_, rfl⟩ ⟨_, rfl⟩

/-- A call returns, with an error where its path names nothing, exactly when the path goes through
directories only and, for `sys_stat`, names a node. -/
theorem path_calls_iff {literal : Nat → Byte} (hb : t.vfs.Built literal) (call : PathCall) :
    t.Resolves literal call ↔ t.Passes call := by
  have h := hb.proper
  cases call with
  | sysOpen path mode => exact sysOpen_iff h path mode
  | sysOpenat cwd path mode directory fileMode => exact sysOpenat_iff h cwd path mode directory fileMode
  | sysStat path => exact sysStat_iff h path
  | sysMkdir path => exact sysMkdir_iff h literal path

/-- In a tree with the file `f`, the missing path `g` and a path below the file are opened. -/
theorem path_calls_open : ∃ t : PathState, t.vfs.Built (fun _ => 0#8) ∧
    t.Resolves (fun _ => 0#8) (.sysOpen [103#8] .readOnly) ∧
    ¬t.Resolves (fun _ => 0#8) (.sysOpen [102#8, 47#8, 120#8] .readOnly) ∧
    (∀ path, t.Resolves (fun _ => 0#8) (.sysOpen path .readOnly) ↔
      t.Passes (.sysOpen path .readOnly)) := by
  obtain ⟨s, hs, hmissing, hbelow⟩ : ∃ s, Vfs.new.mount.create (fun _ => 0#8) [102#8] .file =
      .ok (some 1, s) ∧
      (⟨s, [CString.slash]⟩ : PathState).sysOpen [103#8] .readOnly =
        .ok (.error .ebadf, ⟨s, [CString.slash]⟩) ∧
      (⟨s, [CString.slash]⟩ : PathState).sysOpen [102#8, 47#8, 120#8] .readOnly =
        .error .nullDeref := ⟨_, rfl, rfl, rfl⟩
  have hbuilt : s.Built (fun _ => 0#8) := .create (.mount .new) hs
  refine ⟨⟨s, [CString.slash]⟩, hbuilt, ⟨_, _, hmissing, Or.inr ⟨_, rfl⟩⟩, ?_,
    fun path => path_calls_iff hbuilt _⟩
  rintro ⟨r, t', hr, -⟩
  cases hbelow.symm.trans hr

/-- `sys_stat` of the missing path `/a` reads the type of the null node. -/
theorem stat_missing_faults : ¬∀ (t : PathState) (call : PathCall), t.vfs.Built (fun _ => 0#8) →
    t.Resolves (fun _ => 0#8) call := by
  intro h
  obtain ⟨r, hr, -⟩ := h ⟨Vfs.new.mount, [CString.slash]⟩ (.sysStat [97#8]) (.mount .new)
  have hfault : (⟨Vfs.new.mount, [CString.slash]⟩ : PathState).sysStat .cwd [97#8] =
      .error .nullDeref := rfl
  cases hfault.symm.trans hr

end PathState

end UmbraOS
