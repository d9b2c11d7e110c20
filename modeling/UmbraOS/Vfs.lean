import UmbraOS.StringHashMap
import UmbraOS.Words

namespace UmbraOS

inductive SeekMode
  | set
  | current
  | end

inductive NodeType
  | file
  | directory
deriving DecidableEq

inductive OpenMode
  | readOnly
  | writeOnly
  | readWrite
deriving DecidableEq

/-- What `file_data` points to. A block keeps the size it was allocated with. -/
inductive FileData
  | null
  | freed
  | block (size : Nat) (bytes : Memory)

/-- Files of the Tmpfs file system, which is the one mounted at the root. -/
structure Node where
  name : CString
  type : NodeType
  parent : Option Nat
  children : Option (StringHashMap 256 Nat)
  fileData : FileData
  fileSize : Nat
  capacity : Nat
  inode : Nat

structure FileDescriptor where
  node : Nat
  mode : OpenMode
  rwPosition : Nat

/-- A range of bytes that Tmpfs copied from or to `file_data`, with the size of the block it
points to at that time. -/
structure Access where
  offset : Nat
  length : Nat
  allocated : Nat

/-- `accesses` is not in the source: it records the copies done by Tmpfs. -/
structure Vfs where
  nodes : CellStore Node
  descriptors : CellStore FileDescriptor
  rootMountpoint : Option Nat
  stdin : Option Nat
  nextInode : Nat
  accesses : List Access

namespace FileData

def allocated : FileData → Nat
  | block size _ => size
  | _ => 0

/-- The result of `new uint8_t[size]`: the null pointer, or a block of unspecified bytes. -/
def ofNew (size : Nat) : Option Memory → FileData
  | none => null
  | some junk => block size junk

/-- A copy that misses the block has no other effect here; it shows in `accesses`. -/
def copyTo (data : FileData) (offset length : Nat) (buffer : Nat → Byte) : FileData :=
  match data with
  | block size bytes => block size (bytes.copy offset length buffer)
  | data => data

/-- What is read without a block is given as zeros; it shows in `accesses`. -/
def bytesFrom (data : FileData) (offset i : Nat) : Byte :=
  match data with
  | block _ bytes => bytes (offset + i)
  | _ => 0#8

end FileData

namespace Vfs

def new : Vfs := ⟨CellStore.empty, CellStore.empty, none, none, 0, []⟩

/-- `mount(nullptr, fs)`. -/
def mount (s : Vfs) : Vfs :=
  { s with
    nodes := s.nodes.alloc ⟨[CString.slash], .directory, none, some StringHashMap.new, .null, 0, 0,
      s.nextInode⟩
    rootMountpoint := some s.nodes.next
    nextInode := s.nextInode + 1 }

/-- `mount(node, fs)` for a node that exists: it becomes a directory with no children. -/
def mountAt (s : Vfs) (node : Nat) : Except Trap Vfs := do
  let nodes ← s.nodes.modify (some node) fun n =>
    { n with type := .directory, children := some StringHashMap.new, inode := s.nextInode }
  return { s with nodes, nextInode := s.nextInode + 1 }

/-- A new node below `parent`, put into the children of `parent`. -/
def addChild (s : Vfs) (parent : Nat) (name : CString) (type : NodeType) :
    Except Trap (Nat × Vfs) := do
  let node := s.nodes.next
  let children := if type = .directory then some StringHashMap.new else none
  let nodes := s.nodes.alloc ⟨name, type, some parent, children, .null, 0, 0, s.nextInode⟩
  let above ← nodes.read (some parent)
  match above.children with
  | none => .error .nullDeref
  | some map =>
    let nodes ← nodes.modify (some parent) fun n => { n with children := some (map.insert name node) }
    return (node, { s with nodes, nextInode := s.nextInode + 1 })

/-- The loop of `create`; each turn takes a character of the path at least, so the length of
the path bounds the turns. `literal` is the memory at the literal of an empty string. -/
def createLoop (literal : Nat → Byte) (type : NodeType) :
    Nat → Vfs → Nat → CString → Except Trap (Nat × Vfs)
  | 0, s, parent, _ => .ok (parent, s)
  | turns + 1, s, parent, path =>
    if path = [] then .ok (parent, s)
    else do
      let name := CString.component path
      let path := CString.rest path
      let above ← s.nodes.read (some parent)
      match above.children.bind fun map => map.get name with
      | some node => createLoop literal type turns s node path
      | none =>
        let (node, s) ← s.addChild parent name
          (if CString.strcmp path literal then type else .directory)
        createLoop literal type turns s node path

def create (literal : Nat → Byte) (s : Vfs) (path : CString) (type : NodeType) :
    Except Trap (Option Nat × Vfs) :=
  match s.rootMountpoint with
  | none => .ok (none, s)
  | some root => do
    let (node, s) ← createLoop literal type path.length s root path
    return (some node, s)

def getNodeLoop (s : Vfs) : Nat → Nat → CString → Except Trap (Option Nat)
  | 0, parent, _ => .ok (some parent)
  | turns + 1, parent, path =>
    if path = [] then .ok (some parent)
    else do
      let above ← s.nodes.read (some parent)
      match above.children with
      | none => .error .nullDeref
      | some map =>
        match map.get (CString.component path) with
        | none => return none
        | some node => getNodeLoop s turns node (CString.rest path)

def getNode (s : Vfs) (path : CString) : Except Trap (Option Nat) :=
  match s.rootMountpoint with
  | none => .ok none
  | some root => getNodeLoop s path.length root (path.dropWhile (· == CString.slash))

def openFile (s : Vfs) (path : CString) (mode : OpenMode) : Except Trap (Option Nat × Vfs) := do
  let node ← s.getNode path
  match node with
  | none => return (none, s)
  | some node =>
    return (some s.descriptors.next, { s with descriptors := s.descriptors.alloc ⟨node, mode, 0⟩ })

/-- `fs->read`: the bytes copied to the caller's buffer. -/
def tmpfsRead (s : Vfs) (node : Node) (offset length : Nat) : (Nat → Byte) × Vfs :=
  (node.fileData.bytesFrom offset,
    { s with accesses := ⟨offset, length, node.fileData.allocated⟩ :: s.accesses })

def tmpfsWrite (s : Vfs) (node : Node) (buffer : Nat → Byte) (offset length : Nat) : Node × Vfs :=
  ({ node with fileData := node.fileData.copyTo offset length buffer },
    { s with accesses := ⟨offset, length, node.fileData.allocated⟩ :: s.accesses })

def advance (s : Vfs) (fd length : Nat) : Vfs :=
  { s with
    descriptors := s.descriptors.adjust fd fun d =>
      { d with rwPosition := u64 (d.rwPosition + length) } }

/-- The result is the return value and the bytes copied to the buffer, if any were. -/
def read (s : Vfs) (fd : Option Nat) (length : Nat) :
    Except Trap (BitVec 64 × Option (Nat → Byte) × Vfs) :=
  match fd with
  | none => .ok (-1, none, s)
  | some a => do
    let d ← s.descriptors.read (some a)
    let node ← s.nodes.read (some d.node)
    if d.rwPosition ≥ node.fileSize ∨ d.mode = .writeOnly ∨ node.type = .directory then
      return (-1, none, s)
    else
      let (bytes, s) := s.tmpfsRead node d.rwPosition length
      return (BitVec.ofNat 64 length, some bytes, if some a = s.stdin then s else s.advance a length)

/-- The loop that doubles the capacity; `fuel` bounds its turns. -/
def growLoop (needed : Nat) : Nat → Nat → Option Nat
  | fuel, capacity =>
    if needed > capacity then
      match fuel with
      | 0 => none
      | fuel + 1 => growLoop needed fuel (u64 (capacity * 2))
    else some capacity

/-- The buffer of a node before `length` bytes are written at `position`, and whether the
write goes on. `answer` is what `new` returns, if it is called. A capacity that does not grow
enough within 64 doublings has become zero. -/
def makeRoom (node : Node) (position length : Nat) (answer : Option Memory) :
    Except Trap (Bool × Node) :=
  if node.fileSize = 0 then
    .ok (true, { node with
      fileData := FileData.ofNew length answer, fileSize := length, capacity := length })
  else if u64 (position + length) > node.capacity then
    match growLoop (u64 (position + length)) 64 node.capacity with
    | none => .error .timeout
    | some capacity =>
      match answer with
      | none => .ok (false, { node with fileData := .freed })
      | some junk => .ok (true, { node with fileData := .block capacity junk, capacity })
  else .ok (true, node)

def write (s : Vfs) (fd : Option Nat) (buffer : Nat → Byte) (length : Nat)
    (answer : Option Memory) : Except Trap (BitVec 64 × Vfs) :=
  match fd with
  | none => .ok (0, s)
  | some a => do
    let d ← s.descriptors.read (some a)
    let node ← s.nodes.read (some d.node)
    if d.mode = .readOnly ∨ node.type = .directory then return (0, s)
    else
      let (go, node) ← makeRoom node d.rwPosition length answer
      if go then
        let (node, s) := s.tmpfsWrite node buffer d.rwPosition length
        let fileSize := if u64 (d.rwPosition + length) > node.fileSize then
          u64 (d.rwPosition + length) else node.fileSize
        let s := { s with nodes := s.nodes.adjust d.node fun _ => { node with fileSize } }
        return (BitVec.ofNat 64 length, s.advance a length)
      else return (-1, { s with nodes := s.nodes.adjust d.node fun _ => node })

def seek (s : Vfs) (fd : Option Nat) (offset : Nat) (mode : SeekMode) : Except Trap Vfs :=
  match fd with
  | none => .ok s
  | some a => do
    let d ← s.descriptors.read (some a)
    match mode with
    | .set => return { s with
        descriptors := s.descriptors.adjust a fun d => { d with rwPosition := offset } }
    | .current => return { s with
        descriptors := s.descriptors.adjust a fun d => { d with rwPosition := u64 (d.rwPosition + offset) } }
    | .end =>
      let node ← s.nodes.read (some d.node)
      return { s with
        descriptors := s.descriptors.adjust a fun d => { d with rwPosition := u64 (node.fileSize + offset) } }

end Vfs

end UmbraOS
