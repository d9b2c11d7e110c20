import UmbraOS.ByteMemory
import UmbraOS.CellStore

namespace UmbraOS

/-- The bytes of a string before its terminator. -/
abbrev CString := List Byte

namespace CString

def slash : Byte := 47#8

/-- The kernel's `strcmp` from position `i` on: a character is compared only once the one
before it was not the terminator, so the first characters are not compared at all. -/
def strcmpFrom (second : Nat → Byte) : CString → Nat → Bool
  | [], _ => true
  | _ :: cs, i => if cs.headD 0#8 ≠ second (i + 1) then false else strcmpFrom second cs (i + 1)

/-- `second` is memory: the comparison can run past the end of the second string. -/
def strcmp (first : CString) (second : Nat → Byte) : Bool := strcmpFrom second first 0

/-- Whether the first bytes are equal and none of them is a terminator. -/
def strncmp (first second : Nat → Byte) : Nat → Bool
  | 0 => true
  | length + 1 => strncmp first second length &&
      first length != 0#8 && second length != 0#8 && first length == second length

/-- The first component of a path. -/
def component (path : CString) : CString := path.takeWhile (· != slash)

/-- The path behind its first component and the slashes that end it. -/
def rest (path : CString) : CString := (path.dropWhile (· != slash)).dropWhile (· == slash)

/-- The string at an address; `fuel` bounds its length. -/
def atAddress (m : Memory) : Nat → Nat → Except Trap CString
  | fuel, a =>
    if m a = 0#8 then .ok []
    else match fuel with
      | 0 => .error .timeout
      | fuel + 1 => do
        let cs ← atAddress m fuel (a + 1)
        return m a :: cs

end CString

end UmbraOS
