import UmbraOS.StringHashMap

namespace UmbraOS

namespace StringHashMap

variable {capacity : Nat} {Value : Type}

/-- The first entry of a chain with a given hash. -/
def lookup (hash : BitVec 32) (chain : List (BitVec 32 × Value)) : Option (BitVec 32 × Value) :=
  chain.find? fun e => e.1 = hash

@[simp] theorem lookup_nil (hash : BitVec 32) :
    lookup hash ([] : List (BitVec 32 × Value)) = none := rfl

theorem lookup_cons (hash : BitVec 32) (e : BitVec 32 × Value)
    (chain : List (BitVec 32 × Value)) :
    lookup hash (e :: chain) = if e.1 = hash then some e else lookup hash chain := by
  unfold lookup
  split
  next he => exact List.find?_cons_of_pos (decide_eq_true he)
  next hne => exact List.find?_cons_of_neg (by simpa using hne)

theorem lookup_eq_none {hash : BitVec 32} {chain : List (BitVec 32 × Value)} :
    lookup hash chain = none ↔ hash ∉ chain.map Prod.fst := by
  unfold lookup
  rw [List.find?_eq_none, List.mem_map]
  constructor
  · intro h hmem
    obtain ⟨e, he, hhash⟩ := hmem
    exact h e he (decide_eq_true hhash)
  · intro h e he hhash
    exact h ⟨e, he, of_decide_eq_true hhash⟩

/-- The entry of a hash after an insertion is the one that was there, or the new one. -/
theorem lookup_insertChain (entry : BitVec 32 × Value) (chain : List (BitVec 32 × Value))
    (hash : BitVec 32) : lookup hash (insertChain entry chain) =
      (lookup hash chain).or (if entry.1 = hash then some entry else none) := by
  induction chain using insertChain.induct with
  | entry => exact entry
  | case1 => rw [insertChain, lookup_cons, lookup_nil, Option.none_or]
  | case2 last =>
    simp only [insertChain, lookup_cons, lookup_nil]
    split
    next => rw [Option.some_or]
    next => rw [Option.none_or]
  | case3 e next es he =>
    rw [insertChain, if_pos he, lookup_cons]
    split
    next => rw [Option.some_or]
    next hne =>
      have hother : ¬entry.1 = hash := fun h => hne (he.trans h)
      rw [if_neg hother, Option.or_none]
  | case4 e next es he ih =>
    rw [insertChain, if_neg he, lookup_cons, ih, lookup_cons hash e (next :: es)]
    split
    next => rw [Option.some_or]
    next => rfl

/-- Without an entry of its hash, an entry is put at the end of its chain. -/
theorem insertChain_of_absent {entry : BitVec 32 × Value} {chain : List (BitVec 32 × Value)}
    (h : lookup entry.1 chain = none) : insertChain entry chain = chain ++ [entry] := by
  induction chain using insertChain.induct with
  | entry => exact entry
  | case1 => rfl
  | case2 last => rfl
  | case3 e next es he =>
    rw [lookup_cons, if_pos he] at h
    cases h
  | case4 e next es he ih =>
    rw [lookup_cons, if_neg he] at h
    rw [insertChain, if_neg he, ih h]
    rfl

theorem get_insert (map : StringHashMap capacity Value) (key query : CString) (value : Value) :
    (map.insert key value).get query =
      (map.get query).or (if hashKey key = hashKey query then some value else none) := by
  have hchain := lookup_insertChain (hashKey key, value)
    (map.entries ((hashKey query).toNat % capacity)) (hashKey query)
  unfold lookup at hchain
  simp only [get, insert]
  split
  next hindex =>
    rw [hchain, Option.map_or]
    split
    next => rfl
    next => rfl
  next hindex =>
    have hne : ¬hashKey key = hashKey query := by
      intro he
      rw [he] at hindex
      exact hindex rfl
    rw [if_neg hne, Option.or_none]

/-- The insertions of a run, in order. -/
def insertAll (inserts : List (CString × Value)) (map : StringHashMap capacity Value) :
    StringHashMap capacity Value :=
  inserts.foldl (fun map e => map.insert e.1 e.2) map

theorem get_insertAll (inserts : List (CString × Value)) (map : StringHashMap capacity Value)
    (query : CString) : (insertAll inserts map).get query =
      (map.get query).or ((inserts.find? fun e => hashKey e.1 = hashKey query).map Prod.snd) := by
  induction inserts generalizing map with
  | nil => rw [insertAll, List.foldl_nil, List.find?_nil, Option.map_none, Option.or_none]
  | cons e inserts ih =>
    have hstep : insertAll (e :: inserts) map = insertAll inserts (map.insert e.1 e.2) := rfl
    rw [hstep, ih, get_insert, Option.or_assoc]
    by_cases he : hashKey e.1 = hashKey query
    · have hfirst : (e :: inserts).find? (fun e => hashKey e.1 = hashKey query) = some e :=
        List.find?_cons_of_pos (decide_eq_true he)
      rw [if_pos he, Option.some_or, hfirst, Option.map_some]
    · rw [if_neg he, Option.none_or, List.find?_cons_of_neg (by simpa using he)]

/-- The value of the first insertion of a key. -/
def firstValue (inserts : List (CString × Value)) (key : CString) : Option Value :=
  (inserts.find? fun e => e.1 = key).map Prod.snd

/-- The first insertion whose key has the hash of `key`, if there is one, is for `key`, or for
the same value as the first insertion of `key`. -/
def FirstOfHash (inserts : List (CString × Value)) (key : CString) : Prop :=
  ∀ e, inserts.find? (fun e => hashKey e.1 = hashKey key) = some e →
    e.1 = key ∨ firstValue inserts key = some e.2

theorem find_key_of_find_hash {inserts : List (CString × Value)} {key : CString}
    {e : CString × Value} (h : inserts.find? (fun e => hashKey e.1 = hashKey key) = some e)
    (hk : e.1 = key) : inserts.find? (fun e => e.1 = key) = some e := by
  induction inserts with
  | nil => cases h
  | cons f inserts ih =>
    by_cases hf : hashKey f.1 = hashKey key
    · have hfirst : (f :: inserts).find? (fun e => hashKey e.1 = hashKey key) = some f :=
        List.find?_cons_of_pos (decide_eq_true hf)
      obtain rfl := Option.some.inj (hfirst.symm.trans h)
      exact List.find?_cons_of_pos (decide_eq_true hk)
    · rw [List.find?_cons_of_neg (by simpa using hf)] at h
      have hne : ¬f.1 = key := fun he => hf (by rw [he])
      rw [List.find?_cons_of_neg (by simpa using hne)]
      exact ih h

/-- The map acts as a finite map on strings at `key` unless another key with the same hash
came first. -/
theorem get_eq_firstValue_iff (inserts : List (CString × Value)) (key : CString) :
    (insertAll inserts (new : StringHashMap capacity Value)).get key =
      firstValue inserts key ↔ FirstOfHash inserts key := by
  have hempty : (new : StringHashMap capacity Value).get key = none := rfl
  rw [get_insertAll, hempty, Option.none_or]
  cases hf : inserts.find? (fun e => hashKey e.1 = hashKey key) with
  | none =>
    have hnone : firstValue inserts key = none := by
      rw [firstValue, Option.map_eq_none_iff, List.find?_eq_none]
      intro e he hk
      have hhash := List.find?_eq_none.mp hf e he
      have hkey : e.1 = key := of_decide_eq_true hk
      exact hhash (decide_eq_true (by rw [hkey]))
    rw [Option.map_none, hnone]
    refine ⟨fun _ e he => ?_, fun _ => rfl⟩
    rw [hf] at he
    cases he
  | some e =>
    rw [Option.map_some]
    constructor
    · intro h e' he'
      rw [hf] at he'
      obtain rfl := Option.some.inj he'
      exact Or.inr h.symm
    · intro h
      rcases h e hf with hk | hv
      · rw [firstValue, find_key_of_find_hash hf hk, Option.map_some]
      · exact hv.symm

/-- The keys `!B` and `"!` have the same hash. -/
theorem get_finds_other_key :
    (insertAll [([33#8, 66#8], 1)] (new : StringHashMap 256 Nat)).get [34#8, 33#8] ≠
      firstValue [([33#8, 66#8], 1)] [34#8, 33#8] := by
  decide

end StringHashMap

end UmbraOS
