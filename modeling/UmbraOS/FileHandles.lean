import UmbraOS.CString
import UmbraOS.DoublyLinkedListWalk

namespace UmbraOS

/-- The fields of a file descriptor that the calls on handles use; `-1` is the id of a descriptor
that is in no table yet. -/
structure HandleDescriptor where
  id : Int
  node : Nat

/-- The file handles of a task. -/
structure HandleTable where
  handles : DoublyLinkedList Nat
  nextId : Int

inductive FileError
  | ebadf
  | enosys
  | enotdir
deriving DecidableEq

/-- What a path leads to. -/
structure Resolved where
  node : Nat
  directory : Bool

/-- Two tasks, of which `table false` is the first, and the descriptors. -/
structure Files where
  descriptors : CellStore HandleDescriptor
  table : Bool → HandleTable

/-- `directory` is the flag `O_DIRECTORY`, and `cwd` says that the descriptor is `AT_FDCWD`; the
access mode does not matter for handles. -/
inductive FileCall
  | sysOpen (path : CString)
  | sysOpenat (cwd : Bool) (path : CString) (directory : Bool) (mode : Nat)
  | sysClose (fd : Int)

namespace HandleTable

/-- The members of a task that has just been made. -/
def new : HandleTable := ⟨DoublyLinkedList.new, 3⟩

def addFileHandle (descriptors : CellStore HandleDescriptor) (t : HandleTable) (fd : Option Nat) :
    Except Trap (CellStore HandleDescriptor × HandleTable × Int) :=
  match fd with
  | none => .ok (descriptors, t, -1)
  | some a => do
    let d ← descriptors.read (some a)
    let descriptors :=
      if d.id = -1 then descriptors.adjust a fun d => { d with id := t.nextId } else descriptors
    let handles ← t.handles.push a
    let d ← descriptors.read (some a)
    return (descriptors, ⟨handles, t.nextId + 1⟩, d.id)

def getLoop (descriptors : CellStore HandleDescriptor) (nodes : CellStore (ListNode Nat)) (id : Int) :
    Nat → Option Nat → Except Trap (Option Nat)
  | _, none => .ok none
  | 0, some _ => .error .timeout
  | fuel + 1, some c => do
    let current ← nodes.read (some c)
    let d ← descriptors.read (some current.value)
    if d.id = id then return some current.value
    else getLoop descriptors nodes id fuel current.next

def getFileHandle (descriptors : CellStore HandleDescriptor) (t : HandleTable) (id : Int) :
    Except Trap (Option Nat) :=
  getLoop descriptors t.handles.nodes id t.handles.nodes.next t.handles.head

/-- The handles that `Task::create` adds. -/
def create (descriptors : CellStore HandleDescriptor) (stdin stdout stderr : Nat) :
    Except Trap (CellStore HandleDescriptor × HandleTable) := do
  let (descriptors, t, _) ← addFileHandle descriptors new (some stdin)
  let (descriptors, t, _) ← addFileHandle descriptors t (some stdout)
  let (descriptors, t, _) ← addFileHandle descriptors t (some stderr)
  return (descriptors, t)

end HandleTable

namespace Files

/-- `resolve` is `Vfs::get_node` on a tree, which the calls on handles do not change. -/
abbrev Resolve := CString → Option Resolved

/-- `init_std`: the descriptors at the addresses 0, 1 and 2. -/
def initStd : CellStore HandleDescriptor :=
  ((CellStore.empty.alloc ⟨0, 0⟩).alloc ⟨1, 1⟩).alloc ⟨2, 2⟩

/-- Two tasks have been created. -/
def booted : Except Trap Files := do
  let (descriptors, first) ← HandleTable.create initStd 0 1 2
  let (descriptors, second) ← HandleTable.create descriptors 0 1 2
  return ⟨descriptors, fun who => if who then second else first⟩

def setTable (s : Files) (who : Bool) (t : HandleTable) : Files :=
  { s with table := fun other => if other = who then t else s.table other }

/-- `Vfs::open`. -/
def openFile (resolve : Resolve) (s : Files) (path : CString) : Option (Nat × Resolved) × Files :=
  match resolve path with
  | none => (none, s)
  | some found =>
    (some (s.descriptors.next, found),
      { s with descriptors := s.descriptors.alloc ⟨-1, found.node⟩ })

def addHandle (s : Files) (who : Bool) (fd : Nat) : Except Trap (Except FileError Int × Files) := do
  let (descriptors, t, id) ← (s.table who).addFileHandle s.descriptors (some fd)
  return (.ok id, { s with descriptors := descriptors }.setTable who t)

def sysOpen (resolve : Resolve) (s : Files) (who : Bool) (path : CString) :
    Except Trap (Except FileError Int × Files) :=
  match s.openFile resolve path with
  | (none, s) => .ok (.error .ebadf, s)
  | (some (fd, _), s) => s.addHandle who fd

/-- The path is looked up as it is, not below the working directory. -/
def sysOpenat (resolve : Resolve) (s : Files) (who : Bool) (cwd : Bool) (path : CString)
    (directory : Bool) (mode : Nat) : Except Trap (Except FileError Int × Files) :=
  if mode ≠ 0 then .ok (.error .enosys, s)
  else if !cwd then .ok (.error .enosys, s)
  else
    match s.openFile resolve path with
    | (none, s) => .ok (.error .ebadf, s)
    | (some (fd, found), s) =>
      -- the descriptor that was made is in no table
      if directory && !found.directory then .ok (.error .enotdir, s)
      else s.addHandle who fd

def sysClose (s : Files) (who : Bool) (id : Int) : Except Trap (Except FileError Int × Files) := do
  match ← (s.table who).getFileHandle s.descriptors id with
  | none => return (.error .ebadf, s)
  | some fd =>
    let handles ← (s.table who).handles.remove fd
    let descriptors ← s.descriptors.free (some fd)
    return (.ok 0,
      { s with descriptors := descriptors }.setTable who { s.table who with handles := handles })

def call (resolve : Resolve) (s : Files) (who : Bool) :
    FileCall → Except Trap (Except FileError Int × Files)
  | .sysOpen path => s.sysOpen resolve who path
  | .sysOpenat cwd path directory mode => s.sysOpenat resolve who cwd path directory mode
  | .sysClose fd => s.sysClose who fd

/-- A call by one of the tasks. -/
def step (resolve : Resolve) (s : Files) (e : Bool × FileCall) : Except Trap Files :=
  (s.call resolve e.1 e.2).map Prod.snd

/-- The handle table of a task contains the descriptor. -/
def Holds (s : Files) (who : Bool) (fd : Nat) : Prop := (s.table who).handles.Has fd

/-- The descriptors in the table of the other task are neither freed nor changed. -/
def LeavesOther (s : Files) (e : Bool × FileCall) (t : Files) : Prop :=
  ∀ fd, s.Holds (!e.1) fd → t.descriptors.cell fd = s.descriptors.cell fd

/-- `stdin`, `stdout` and `stderr`. -/
def Standard (fd : Nat) : Prop := fd < 3

/-- No standard descriptor is closed that the other task has as well. -/
def ClosesOwn (s : Files) (e : Bool × FileCall) (_ : Files) : Prop :=
  match e.2 with
  | .sysClose id => ∀ fd, (s.table e.1).getFileHandle s.descriptors id = .ok (some fd) →
      Standard fd → ¬s.Holds (!e.1) fd
  | _ => True

/-- Only the standard descriptors are in both tables. -/
structure Inv (s : Files) : Prop where
  standard : 3 ≤ s.descriptors.next
  made : ∀ who fd, s.Holds who fd → fd < s.descriptors.next
  apart : ∀ who fd, s.Holds who fd → s.Holds (!who) fd → Standard fd

variable {resolve : Resolve} {s t : Files} {who : Bool}

theorem getLoop_has {descriptors : CellStore HandleDescriptor} {nodes : CellStore (ListNode Nat)}
    {id : Int} {fuel : Nat} {p : Option Nat} {fd : Nat}
    (h : HandleTable.getLoop descriptors nodes id fuel p = .ok (some fd)) :
    DoublyLinkedList.Visits nodes p fd ∧ ∃ d, descriptors.cell fd = some d := by
  induction fuel generalizing p with
  | zero => cases p <;> cases h
  | succ fuel ih =>
    cases p with
    | none => cases h
    | some c =>
      rw [HandleTable.getLoop] at h
      obtain ⟨current, hread, h⟩ := Except.bind_eq_ok.mp h
      obtain ⟨d, hd, h⟩ := Except.bind_eq_ok.mp h
      have hcell := CellStore.read_some_ok.mp hread
      split at h
      next =>
        cases h
        have hbcell := CellStore.read_some_ok.mp hd
        exact ⟨DoublyLinkedList.Visits.here hcell, d, hbcell⟩
      next =>
        obtain ⟨hv, hlive⟩ := ih h
        exact ⟨DoublyLinkedList.Visits.later hcell hv, hlive⟩

/-- What adding a handle does to the table and to the descriptors. -/
theorem addFileHandle_spec {descriptors descriptors' : CellStore HandleDescriptor}
    {table table' : HandleTable} {fd : Nat} {id : Int}
    (h : table.addFileHandle descriptors (some fd) = .ok (descriptors', table', id)) :
    descriptors'.next = descriptors.next ∧
      (∀ other, other ≠ fd → descriptors'.cell other = descriptors.cell other) ∧
      ∀ v, table'.handles.Has v → v = fd ∨ table.handles.Has v := by
  rw [HandleTable.addFileHandle] at h
  obtain ⟨d, -, h⟩ := Except.bind_eq_ok.mp h
  obtain ⟨handles, hpush, h⟩ := Except.bind_eq_ok.mp h
  obtain ⟨d', -, h⟩ := Except.bind_eq_ok.mp h
  cases h
  refine ⟨?_, fun other hne => ?_, fun v hv => DoublyLinkedList.push_has hpush hv⟩
  · split
    next => rfl
    next => rfl
  · split
    next => exact CellStore.adjust_cell_ne _ _ hne
    next => rfl

theorem holds_setTable {d : CellStore HandleDescriptor} {table : HandleTable} {other : Bool}
    {fd : Nat} (h : ({ s with descriptors := d }.setTable who table).Holds other fd) :
    (other = who ∧ table.handles.Has fd) ∨ (other ≠ who ∧ s.Holds other fd) := by
  unfold Holds setTable at h
  by_cases ho : other = who
  · simp only [if_pos ho] at h
    exact Or.inl ⟨ho, h⟩
  · simp only [if_neg ho] at h
    exact Or.inr ⟨ho, h⟩

/-- A descriptor that was just made and is put into a table. -/
theorem Inv.addHandle (h : Inv s) {node : Nat} {r : Except FileError Int}
    (ha : { s with descriptors := s.descriptors.alloc ⟨-1, node⟩ }.addHandle who
      s.descriptors.next = .ok (r, t)) :
    Inv t ∧ ∀ other fd, s.Holds other fd → t.descriptors.cell fd = s.descriptors.cell fd := by
  obtain ⟨⟨descriptors, table, id⟩, hadd, ha⟩ := Except.bind_eq_ok.mp ha
  cases ha
  obtain ⟨hnext, hcells, hhas⟩ := addFileHandle_spec hadd
  have hstandard := h.standard
  have hmade : ∀ other fd, s.Holds other fd → fd ≠ s.descriptors.next := by
    intro other fd hfd
    have hlt := h.made other fd hfd
    omega
  have hholds : ∀ other fd, (({ s with descriptors := descriptors } : Files).setTable who
      table).Holds other fd → (other = who ∧ fd = s.descriptors.next) ∨ s.Holds other fd := by
    intro other fd hfd
    rcases holds_setTable hfd with ⟨rfl, hv⟩ | ⟨-, hv⟩
    · rcases hhas fd hv with hsame | hv
      · exact Or.inl ⟨rfl, hsame⟩
      · exact Or.inr hv
    · exact Or.inr hv
  refine ⟨⟨?_, ?_, ?_⟩, ?_⟩
  · show 3 ≤ descriptors.next
    rw [hnext, CellStore.alloc_next]
    omega
  · intro other fd hfd
    show fd < descriptors.next
    rw [hnext, CellStore.alloc_next]
    rcases hholds other fd hfd with ⟨-, rfl⟩ | hfd
    · exact Nat.lt_succ_self _
    · exact Nat.lt_succ_of_lt (h.made other fd hfd)
  · intro other fd hfd hfd'
    rcases hholds other fd hfd with ⟨rfl, rfl⟩ | hold
    · rcases hholds _ _ hfd' with ⟨hsame, -⟩ | hold'
      · cases other <;> cases hsame
      · exact absurd rfl (hmade _ _ hold')
    · rcases hholds _ _ hfd' with ⟨-, rfl⟩ | hold'
      · exact absurd rfl (hmade _ _ hold)
      · exact h.apart other fd hold hold'
  · intro other fd hfd
    have hne := hmade other fd hfd
    show descriptors.cell fd = s.descriptors.cell fd
    rw [hcells fd hne, CellStore.alloc_cell, if_neg hne]

/-- A descriptor that was made and then forgotten. -/
theorem Inv.leak (h : Inv s) (node : Nat) :
    Inv { s with descriptors := s.descriptors.alloc ⟨-1, node⟩ } ∧ ∀ other fd, s.Holds other fd →
      (s.descriptors.alloc ⟨-1, node⟩).cell fd = s.descriptors.cell fd := by
  refine ⟨⟨?_, ?_, h.apart⟩, ?_⟩
  · exact Nat.le_succ_of_le h.standard
  · exact fun other fd hfd => Nat.lt_succ_of_lt (h.made other fd hfd)
  · intro other fd hfd
    have hlt := h.made other fd hfd
    rw [CellStore.alloc_cell, if_neg (Nat.ne_of_lt hlt)]

theorem Inv.sysOpen (h : Inv s) {path : CString} {r : Except FileError Int}
    (ho : s.sysOpen resolve who path = .ok (r, t)) :
    Inv t ∧ ∀ other fd, s.Holds other fd → t.descriptors.cell fd = s.descriptors.cell fd := by
  unfold Files.sysOpen openFile at ho
  cases hfound : resolve path with
  | none =>
    rw [hfound] at ho
    cases ho
    exact ⟨h, fun _ _ _ => rfl⟩
  | some found =>
    rw [hfound] at ho
    exact h.addHandle ho

theorem Inv.sysOpenat (h : Inv s) {cwd directory : Bool} {path : CString} {mode : Nat}
    {r : Except FileError Int}
    (ho : s.sysOpenat resolve who cwd path directory mode = .ok (r, t)) :
    Inv t ∧ ∀ other fd, s.Holds other fd → t.descriptors.cell fd = s.descriptors.cell fd := by
  unfold Files.sysOpenat openFile at ho
  split at ho
  next =>
    cases ho
    exact ⟨h, fun _ _ _ => rfl⟩
  next =>
    split at ho
    next =>
      cases ho
      exact ⟨h, fun _ _ _ => rfl⟩
    next =>
      cases hfound : resolve path with
      | none =>
        rw [hfound] at ho
        cases ho
        exact ⟨h, fun _ _ _ => rfl⟩
      | some found =>
        rw [hfound] at ho
        simp only at ho
        split at ho
        next =>
          cases ho
          exact h.leak found.node
        next => exact h.addHandle ho

/-- A call of `sys_close` leaves the other task alone exactly when it closes no shared
descriptor. -/
theorem Inv.sysClose (h : Inv s) {id : Int} {r : Except FileError Int}
    (hclose : s.sysClose who id = .ok (r, t)) :
    Inv t ∧ (LeavesOther s (who, .sysClose id) t ↔ ClosesOwn s (who, .sysClose id) t) := by
  obtain ⟨found, hget, hclose⟩ := Except.bind_eq_ok.mp hclose
  unfold LeavesOther ClosesOwn
  simp only [hget]
  cases found with
  | none =>
    cases hclose
    exact ⟨h, iff_of_true (fun _ _ => rfl) fun fd hfd => by cases hfd⟩
  | some fd =>
    obtain ⟨handles, hremove, hclose⟩ := Except.bind_eq_ok.mp hclose
    obtain ⟨descriptors, hfree, hclose⟩ := Except.bind_eq_ok.mp hclose
    cases hclose
    obtain ⟨hhas, d, hlive⟩ := getLoop_has hget
    rw [CellStore.free_live hlive] at hfree
    cases hfree
    have hholds : ∀ other v, (({ s with descriptors := s.descriptors.erase fd } : Files).setTable
        who { s.table who with handles := handles }).Holds other v → s.Holds other v := by
      intro other v hv
      rcases holds_setTable hv with ⟨rfl, hv⟩ | ⟨-, hv⟩
      · exact DoublyLinkedList.remove_has hremove hv
      · exact hv
    refine ⟨⟨h.standard, ?_, ?_⟩, ?_⟩
    · exact fun other v hv => h.made other v (hholds other v hv)
    · exact fun other v hv hv' => h.apart other v (hholds _ _ hv) (hholds _ _ hv')
    · have hcell : ∀ v, (s.descriptors.erase fd).cell v = s.descriptors.cell v ↔ v ≠ fd := by
        intro v
        by_cases hv : v = fd
        · subst hv
          rw [CellStore.erase_cell, if_pos rfl, hlive]
          exact iff_of_false (fun he => by cases he) fun hne => hne rfl
        · exact iff_of_true (CellStore.erase_cell_ne _ hv) hv
      constructor
      · intro hleaves v hv _ hother
        cases hv
        exact (hcell fd).mp (hleaves fd hother) rfl
      · intro hown v hv
        apply (hcell v).mpr
        rintro rfl
        exact hown v rfl (h.apart who v hhas hv) hv

/-- What a call does to the invariant and to the other task. -/
theorem Inv.step (h : Inv s) {e : Bool × FileCall} (hs : s.step resolve e = .ok t) :
    Inv t ∧ (LeavesOther s e t ↔ ClosesOwn s e t) := by
  obtain ⟨who, call⟩ := e
  unfold Files.step at hs
  cases hcall : s.call resolve who call with
  | error trap =>
    rw [hcall] at hs
    cases hs
  | ok result =>
    obtain ⟨r, t'⟩ := result
    rw [hcall] at hs
    cases hs
    cases call with
    | sysOpen path =>
      obtain ⟨hinv, hcells⟩ := h.sysOpen hcall
      exact ⟨hinv, iff_of_true (fun fd hfd => hcells _ fd hfd) trivial⟩
    | sysOpenat cwd path directory mode =>
      obtain ⟨hinv, hcells⟩ := h.sysOpenat hcall
      exact ⟨hinv, iff_of_true (fun fd hfd => hcells _ fd hfd) trivial⟩
    | sysClose id => exact h.sysClose hcall

/-- Two tasks that have just been created. -/
theorem booted_inv (h : booted = .ok s) : Inv s := by
  have hcreate : ∀ descriptors descriptors' table, descriptors.next = 3 →
      HandleTable.create descriptors 0 1 2 = .ok (descriptors', table) →
      descriptors'.next = 3 ∧ ∀ fd, table.handles.Has fd → fd < 3 := by
    intro descriptors descriptors' table hnext hc
    obtain ⟨⟨d₁, t₁, _⟩, h₁, hc⟩ := Except.bind_eq_ok.mp hc
    obtain ⟨⟨d₂, t₂, _⟩, h₂, hc⟩ := Except.bind_eq_ok.mp hc
    obtain ⟨⟨d₃, t₃, _⟩, h₃, hc⟩ := Except.bind_eq_ok.mp hc
    cases hc
    obtain ⟨hn₁, -, hv₁⟩ := addFileHandle_spec h₁
    obtain ⟨hn₂, -, hv₂⟩ := addFileHandle_spec h₂
    obtain ⟨hn₃, -, hv₃⟩ := addFileHandle_spec h₃
    refine ⟨hn₃.trans (hn₂.trans (hn₁.trans hnext)), fun fd hfd => ?_⟩
    rcases hv₃ fd hfd with rfl | hfd
    · decide
    · rcases hv₂ fd hfd with rfl | hfd
      · decide
      · rcases hv₁ fd hfd with rfl | hfd
        · decide
        · exact absurd hfd (DoublyLinkedList.not_has_new fd)
  obtain ⟨⟨d₁, first⟩, h₁, h⟩ := Except.bind_eq_ok.mp h
  obtain ⟨⟨d₂, second⟩, h₂, h⟩ := Except.bind_eq_ok.mp h
  cases h
  obtain ⟨hn₁, hv₁⟩ := hcreate _ _ _ rfl h₁
  obtain ⟨hn₂, hv₂⟩ := hcreate _ _ _ hn₁ h₂
  have hholds : ∀ who fd, (⟨d₂, fun who => if who then second else first⟩ : Files).Holds who fd →
      fd < 3 := by
    intro who fd hfd
    cases who with
    | true => exact hv₂ fd hfd
    | false => exact hv₁ fd hfd
  refine ⟨Nat.le_of_eq hn₂.symm, fun who fd hfd => ?_, fun who fd hfd _ => hholds who fd hfd⟩
  show fd < d₂.next
  rw [hn₂]
  exact hholds who fd hfd

/-- No call of a run frees or changes what the other task has, exactly when no call closes a standard
descriptor that the other task still has. -/
theorem close_leaves_other_iff {resolve : Resolve} {s : Files} (h : booted = .ok s)
    (calls : List (Bool × FileCall)) :
    Along (step resolve) LeavesOther s calls ↔ Along (step resolve) ClosesOwn s calls := by
  have hany : Along (step resolve) (fun _ _ _ => True) s calls :=
    Along.of_forall (fun _ _ _ _ => trivial) s
  have hkeep : ∀ s e t, Inv s → True → step resolve s e = .ok t →
      Inv t ∧ (LeavesOther s e t ↔ ClosesOwn s e t) := fun _ _ _ hi _ hs => hi.step hs
  exact Along.congr hkeep (booted_inv h) hany

/-- One task opens a file and closes it. -/
theorem close_leaves_other_open : ∃ s, booted = .ok s ∧
    (Along (step fun _ => some ⟨7, false⟩) LeavesOther s
        [(false, .sysOpen []), (false, .sysClose 6), (true, .sysClose 9)] ↔
      Along (step fun _ => some ⟨7, false⟩) ClosesOwn s
        [(false, .sysOpen []), (false, .sysClose 6), (true, .sysClose 9)]) :=
  ⟨_, rfl, close_leaves_other_iff rfl _⟩

/-- One task closes `stderr`, and the other one has it still. -/
theorem close_frees_shared :
    ¬∀ (resolve : Resolve) (s : Files) (calls : List (Bool × FileCall)), booted = .ok s →
      Along (step resolve) LeavesOther s calls := by
  intro h
  obtain ⟨s, hs⟩ : ∃ s, booted = .ok s := ⟨_, rfl⟩
  obtain ⟨t, ht⟩ : ∃ t, step (fun _ => none) s (false, .sysClose 2) = .ok t ∧
      s.Holds true 2 ∧ t.descriptors.cell 2 ≠ s.descriptors.cell 2 := by
    cases hs
    exact ⟨_, rfl, DoublyLinkedList.has_head rfl, fun he => by cases he⟩
  have hleaves := (h (fun _ => none) s [(false, .sysClose 2)] hs t ht.1).1
  exact ht.2.2 (hleaves 2 ht.2.1)

end Files

end UmbraOS
