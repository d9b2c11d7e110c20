import UmbraOS.Vfs

namespace UmbraOS

namespace Initramfs

/-- The value of the octal digits; other characters, which are signed, are not rejected. -/
def octToDec (str : CString) : BitVec 64 :=
  str.foldl (fun res c => res * 8#64 + (c.signExtend 64 - 48#64)) 0#64

def ustarTypeNormal : Byte := 48#8

def ustarTypeDirectory : Byte := 53#8

/-- The literal that the magic of a header is compared with. -/
def ustar (i : Nat) : Byte := [117#8, 115#8, 116#8, 97#8, 114#8].getD i 0#8

/-- The fields of a `UstarHeader`, by their offsets. -/
def size (m : Memory) (fuel archive : Nat) : Except Trap (BitVec 64) := do
  let digits ← CString.atAddress m fuel (archive + 124)
  return octToDec digits

def typeFlag (m : Memory) (archive : Nat) : Byte := m (archive + 156)

def magic (m : Memory) (archive i : Nat) : Byte := m (archive + 257 + i)

def isHeader (m : Memory) (archive : Nat) : Bool := CString.strncmp (magic m archive) ustar 5

def next (archive : Nat) (size : BitVec 64) : Nat :=
  u64 (archive + 512 + alignUp size.toNat 512)

/-- The buffer of a regular member; `answer` is what `new` returns, and without memory the
copy faults. -/
def fileData (m : Memory) (archive : Nat) (size : BitVec 64) (answer : Option Memory) :
    Except Trap FileData :=
  let data := FileData.ofNew size.toNat answer
  if data.allocated < size.toNat then .error .nullDeref
  else .ok (data.copyTo 0 size.toNat fun i => m (archive + 512 + i))

/-- The body of the loop for a member of the archive. -/
def addMember (literal : Nat → Byte) (m : Memory) (fuel : Nat) (s : Vfs) (archive : Nat)
    (size : BitVec 64) (answer : Option Memory) : Except Trap Vfs :=
  if typeFlag m archive = ustarTypeNormal then do
    let name ← CString.atAddress m fuel archive
    let (node, s) ← s.create literal name .file
    let data ← fileData m archive size answer
    let nodes ← s.nodes.modify node fun n => { n with fileData := data, fileSize := size.toNat }
    return { s with nodes }
  else if typeFlag m archive = ustarTypeDirectory then do
    let name ← CString.atAddress m fuel archive
    let (_, s) ← s.create literal name .directory
    return s
  else return s

/-- The loop over the archive; `fuel` bounds its turns and the strings it reads. -/
def initLoop (literal : Nat → Byte) (m : Memory) (answers : Nat → Option Memory) (fuel : Nat) :
    Nat → Vfs → Nat → Except Trap Vfs
  | 0, s, archive => if isHeader m archive then .error .timeout else .ok s
  | turns + 1, s, archive =>
    if isHeader m archive then do
      let size ← size m fuel archive
      let s ← addMember literal m fuel s archive size (answers turns)
      initLoop literal m answers fuel turns s (next archive size)
    else .ok s

def init (literal : Nat → Byte) (m : Memory) (answers : Nat → Option Memory) (fuel : Nat) (s : Vfs)
    (archive : Nat) : Except Trap Vfs :=
  initLoop literal m answers fuel fuel s archive

end Initramfs

end UmbraOS
