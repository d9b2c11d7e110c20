import UmbraOS.CString

namespace UmbraOS

/-- The buckets, each with its entries in chain order: the hash of the key and the value. -/
structure StringHashMap (capacity : Nat) (Value : Type) where
  entries : Nat → List (BitVec 32 × Value)

namespace StringHashMap

variable {capacity : Nat} {Value : Type}

def hashKey (key : CString) : BitVec 32 :=
  key.foldl (fun hash c => ((hash <<< 5) + hash) ^^^ c.signExtend 32) 5381#32

/-- The bucket array comes from `new` and is taken to hold null pointers. -/
def new : StringHashMap capacity Value := ⟨fun _ => []⟩

/-- The walk to the end of a chain; the last entry is not compared with the new one. -/
def insertChain (entry : BitVec 32 × Value) :
    List (BitVec 32 × Value) → List (BitVec 32 × Value)
  | [] => [entry]
  | [last] => [last, entry]
  | e :: next :: es =>
    if e.1 = entry.1 then e :: next :: es else e :: insertChain entry (next :: es)

def insert (map : StringHashMap capacity Value) (key : CString) (value : Value) :
    StringHashMap capacity Value where
  entries index :=
    if index = (hashKey key).toNat % capacity then
      insertChain (hashKey key, value) (map.entries index)
    else map.entries index

def get (map : StringHashMap capacity Value) (key : CString) : Option Value :=
  ((map.entries ((hashKey key).toNat % capacity)).find? fun e => e.1 = hashKey key).map Prod.snd

end StringHashMap

end UmbraOS
