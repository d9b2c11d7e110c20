import UmbraOS.StringHashMapGet

namespace UmbraOS

namespace StringHashMap

variable {capacity : Nat} {Value : Type}

/-- The walk of `get_nth` along one chain: the value it returns, or the count to go on with. -/
def nthChain (n : Nat) : List (BitVec 32 × Value) → Nat → Except Value Nat
  | [], count => .ok count
  | e :: es, count =>
    if e.1 ≠ 0 then
      if count = n then .error e.2 else nthChain n es (count + 1)
    else nthChain n es count

/-- The walk along the chains of some buckets from `i` on. -/
def nthBuckets (entries : Nat → List (BitVec 32 × Value)) (n : Nat) : Nat → Nat → Nat → Option Value
  | 0, _, _ => none
  | buckets + 1, i, count =>
    match nthChain n (entries i) count with
    | .error value => some value
    | .ok count => nthBuckets entries n buckets (i + 1) count

def getNth (map : StringHashMap capacity Value) (n : Nat) : Option Value :=
  nthBuckets map.entries n capacity 0 0

/-- The entries that `get_nth` counts. -/
def counted (chain : List (BitVec 32 × Value)) : List (BitVec 32 × Value) :=
  chain.filter fun e => e.1 ≠ 0

theorem counted_append (xs ys : List (BitVec 32 × Value)) :
    counted (xs ++ ys) = counted xs ++ counted ys := List.filter_append ..

/-- The entries of some buckets from `i` on, in the order of the walk. -/
def chains (entries : Nat → List (BitVec 32 × Value)) : Nat → Nat → List (BitVec 32 × Value)
  | 0, _ => []
  | buckets + 1, i => entries i ++ chains entries buckets (i + 1)

/-- All entries of a map, in the order of the walk. -/
def order (map : StringHashMap capacity Value) : List (BitVec 32 × Value) :=
  chains map.entries capacity 0

theorem nthChain_eq (n : Nat) (chain : List (BitVec 32 × Value)) {count : Nat} (hle : count ≤ n) :
    nthChain n chain count =
      match (counted chain)[n - count]? with
      | some e => .error e.2
      | none => .ok (count + (counted chain).length) := by
  induction chain generalizing count with
  | nil => rfl
  | cons e es ih =>
    rw [nthChain]
    by_cases hzero : e.1 ≠ 0
    · have hcounted : counted (e :: es) = e :: counted es := List.filter_cons_of_pos (by simpa using hzero)
      rw [if_pos hzero, hcounted]
      by_cases hlast : count = n
      · rw [if_pos hlast, hlast, Nat.sub_self]
        rfl
      · obtain ⟨k, hk⟩ : ∃ k, n - count = k + 1 := ⟨n - count - 1, by omega⟩
        have hsub : n - (count + 1) = k := by omega
        rw [if_neg hlast, ih (by omega), hk, hsub, List.getElem?_cons_succ, List.length_cons]
        split
        next => rfl
        next => rw [Nat.add_assoc, Nat.add_comm 1]
    · have hcounted : counted (e :: es) = counted es := List.filter_cons_of_neg (by simpa using hzero)
      rw [if_neg hzero, hcounted]
      exact ih hle

theorem nthBuckets_eq (entries : Nat → List (BitVec 32 × Value)) (n buckets i : Nat) {count : Nat}
    (hle : count ≤ n) : nthBuckets entries n buckets i count =
      ((counted (chains entries buckets i))[n - count]?).map Prod.snd := by
  induction buckets generalizing i count with
  | zero => rfl
  | succ buckets ih =>
    rw [nthBuckets, nthChain_eq n _ hle, chains, counted_append]
    cases hfound : (counted (entries i))[n - count]? with
    | some e =>
      obtain ⟨hlt, -⟩ := List.getElem?_eq_some_iff.mp hfound
      rw [List.getElem?_append_left hlt, hfound]
      rfl
    | none =>
      have hlen := List.getElem?_eq_none_iff.mp hfound
      rw [List.getElem?_append_right hlen]
      show nthBuckets entries n buckets (i + 1) (count + (counted (entries i)).length) = _
      rw [ih (i + 1) (by omega), Nat.sub_add_eq]

/-- `get_nth` numbers the entries that have a hash other than zero. -/
theorem getNth_eq (map : StringHashMap capacity Value) (n : Nat) :
    map.getNth n = ((counted map.order)[n]?).map Prod.snd := nthBuckets_eq _ _ _ _ (Nat.zero_le n)

theorem mem_chains {entries : Nat → List (BitVec 32 × Value)} {buckets i : Nat} {e : BitVec 32 × Value} :
    e ∈ chains entries buckets i ↔ ∃ j, i ≤ j ∧ j < i + buckets ∧ e ∈ entries j := by
  induction buckets generalizing i with
  | zero =>
    refine ⟨fun h => absurd h List.not_mem_nil, fun h => ?_⟩
    obtain ⟨j, hle, hlt, -⟩ := h
    omega
  | succ buckets ih =>
    rw [chains, List.mem_append, ih]
    constructor
    · intro h
      rcases h with h | ⟨j, hle, hlt, h⟩
      · exact ⟨i, Nat.le_refl i, by omega, h⟩
      · exact ⟨j, by omega, by omega, h⟩
    · intro h
      obtain ⟨j, hle, hlt, h⟩ := h
      by_cases hj : j = i
      · rw [hj] at h
        exact Or.inl h
      · exact Or.inr ⟨j, by omega, by omega, h⟩

theorem chains_congr {entries entries' : Nat → List (BitVec 32 × Value)} {buckets i : Nat}
    (h : ∀ j, i ≤ j → j < i + buckets → entries j = entries' j) :
    chains entries buckets i = chains entries' buckets i := by
  induction buckets generalizing i with
  | zero => rfl
  | succ buckets ih =>
    rw [chains, chains, h i (Nat.le_refl i) (by omega), ih fun j hle hlt => h j (by omega) (by omega)]

theorem chains_add (entries : Nat → List (BitVec 32 × Value)) (m n i : Nat) :
    chains entries (m + n) i = chains entries m i ++ chains entries n (i + m) := by
  induction m generalizing i with
  | zero => rw [Nat.zero_add, chains, List.nil_append, Nat.add_zero]
  | succ m ih =>
    rw [Nat.succ_add, chains, chains, ih, List.append_assoc, Nat.add_right_comm i 1 m]
    rfl

/-- The entries up to the end of the chain in which a key belongs, and the entries behind it. -/
def upTo (map : StringHashMap capacity Value) (key : CString) : List (BitVec 32 × Value) :=
  chains map.entries ((hashKey key).toNat % capacity + 1) 0

def behind (map : StringHashMap capacity Value) (key : CString) : List (BitVec 32 × Value) :=
  chains map.entries (capacity - ((hashKey key).toNat % capacity + 1))
    ((hashKey key).toNat % capacity + 1)

theorem order_eq (hc : 0 < capacity) (map : StringHashMap capacity Value) (key : CString) :
    map.order = map.upTo key ++ map.behind key := by
  have hlt := Nat.mod_lt (hashKey key).toNat hc
  have hsplit := chains_add map.entries ((hashKey key).toNat % capacity + 1)
    (capacity - ((hashKey key).toNat % capacity + 1)) 0
  rw [Nat.zero_add, Nat.add_sub_cancel' hlt] at hsplit
  exact hsplit

/-- An insertion of a key that is absent puts its entry between the two. -/
theorem order_insert (hc : 0 < capacity) {map : StringHashMap capacity Value} {key : CString} {value : Value}
    (h : ∀ i, (map.insert key value).entries i = if i = (hashKey key).toNat % capacity then
      map.entries i ++ [(hashKey key, value)] else map.entries i) :
    (map.insert key value).order = map.upTo key ++ (hashKey key, value) :: map.behind key := by
  rw [order_eq hc (map.insert key value) key, upTo, behind, upTo, behind]
  have hafter : chains (map.insert key value).entries (capacity - ((hashKey key).toNat % capacity + 1))
      ((hashKey key).toNat % capacity + 1) = chains map.entries
        (capacity - ((hashKey key).toNat % capacity + 1)) ((hashKey key).toNat % capacity + 1) := by
    refine chains_congr fun j hle _ => ?_
    rw [h, if_neg (by omega)]
  have hbefore : chains (map.insert key value).entries ((hashKey key).toNat % capacity) 0 =
      chains map.entries ((hashKey key).toNat % capacity) 0 := by
    refine chains_congr fun j _ hlt => ?_
    rw [h, if_neg (by omega)]
  rw [hafter, chains_add _ _ 1, hbefore, chains_add map.entries _ 1, Nat.zero_add, chains, chains, chains,
    chains, h, if_pos rfl]
  simp

end StringHashMap

end UmbraOS
