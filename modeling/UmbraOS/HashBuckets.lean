import UmbraOS.StringHashMapNth

namespace UmbraOS

structure HashEntry (Value : Type) where
  keyHash : BitVec 32
  value : Value
  next : Option Nat

/-- A map as it lies in memory: the pointers in its bucket array, and the entries of all maps. -/
structure HashBuckets (capacity : Nat) (Value : Type) where
  buckets : Nat → Option Nat
  heap : CellStore (HashEntry Value)

/-- A call on a map. -/
inductive MapCall (Value : Type)
  | insert (key : CString) (value : Value)
  | get (key : CString)
  | getNth (n : Nat)

namespace HashBuckets

open StringHashMap (hashKey)

variable {capacity : Nat} {Value : Type}

/-- The constructor leaves in the bucket array what was in the block before. -/
def construct (prior : Nat → Option Nat) (heap : CellStore (HashEntry Value)) :
    HashBuckets capacity Value := ⟨prior, heap⟩

def insertLoop (hash : BitVec 32) (newEntry : Nat) (heap : CellStore (HashEntry Value)) :
    Nat → Nat → Except Trap (CellStore (HashEntry Value))
  | 0, _ => .error .timeout
  | fuel + 1, a => do
    let entry ← heap.read (some a)
    match entry.next with
    | none => heap.modify (some a) fun e => { e with next := some newEntry }
    | some b => if entry.keyHash = hash then return heap else insertLoop hash newEntry heap fuel b

/-- The new entry is made before the walk, whether it is needed or not. -/
def insert (m : HashBuckets capacity Value) (key : CString) (value : Value) :
    Except Trap (HashBuckets capacity Value) :=
  let index := (hashKey key).toNat % capacity
  let newEntry := m.heap.next
  let heap := m.heap.alloc ⟨hashKey key, value, none⟩
  match m.buckets index with
  | none => .ok ⟨Function.update m.buckets index (some newEntry), heap⟩
  | some a => do
    let heap ← insertLoop (hashKey key) newEntry heap (heap.next + 1) a
    return ⟨m.buckets, heap⟩

def getLoop (heap : CellStore (HashEntry Value)) (hash : BitVec 32) :
    Nat → Option Nat → Except Trap (Option Value)
  | _, none => .ok none
  | 0, some _ => .error .timeout
  | fuel + 1, some a => do
    let entry ← heap.read (some a)
    if entry.keyHash = hash then return some entry.value else getLoop heap hash fuel entry.next

def get (m : HashBuckets capacity Value) (key : CString) : Except Trap (Option Value) :=
  getLoop m.heap (hashKey key) (m.heap.next + 1) (m.buckets ((hashKey key).toNat % capacity))

/-- The walk along one chain: the value to return, or the count to go on with. -/
def nthChain (heap : CellStore (HashEntry Value)) (n : Nat) :
    Nat → Option Nat → Nat → Except Trap (Except Value Nat)
  | _, none, count => .ok (.ok count)
  | 0, some _, _ => .error .timeout
  | fuel + 1, some a, count => do
    let entry ← heap.read (some a)
    if entry.keyHash ≠ 0 then
      if count = n then return .error entry.value else nthChain heap n fuel entry.next (count + 1)
    else nthChain heap n fuel entry.next count

def nthBuckets (m : HashBuckets capacity Value) (n : Nat) :
    Nat → Nat → Nat → Except Trap (Option Value)
  | 0, _, _ => .ok none
  | buckets + 1, i, count => do
    match ← nthChain m.heap n (m.heap.next + 1) (m.buckets i) count with
    | .error value => return some value
    | .ok count => nthBuckets m n buckets (i + 1) count

def getNth (m : HashBuckets capacity Value) (n : Nat) : Except Trap (Option Value) :=
  m.nthBuckets n capacity 0 0

/-- What a call answers; an insertion answers nothing. -/
def call (m : HashBuckets capacity Value) :
    MapCall Value → Except Trap (HashBuckets capacity Value × Option Value)
  | .insert key value => do
    let m ← m.insert key value
    return (m, none)
  | .get key => do
    let r ← m.get key
    return (m, r)
  | .getNth n => do
    let r ← m.getNth n
    return (m, r)

def answers (m : HashBuckets capacity Value) :
    List (MapCall Value) → Except Trap (List (Option Value))
  | [] => .ok []
  | c :: calls => do
    let (m, r) ← m.call c
    let rs ← m.answers calls
    return r :: rs

end HashBuckets

namespace StringHashMap

variable {capacity : Nat} {Value : Type}

def call (map : StringHashMap capacity Value) : MapCall Value → StringHashMap capacity Value × Option Value
  | .insert key value => (map.insert key value, none)
  | .get key => (map, map.get key)
  | .getNth n => (map, map.getNth n)

def answers (map : StringHashMap capacity Value) : List (MapCall Value) → List (Option Value)
  | [] => []
  | c :: calls => (map.call c).2 :: (map.call c).1.answers calls

end StringHashMap

namespace HashBuckets

open StringHashMap (hashKey)

variable {capacity : Nat} {Value : Type}

/-- From a pointer on, the entries at the addresses `as` are the entries `es`. -/
def Strings (heap : CellStore (HashEntry Value)) :
    Option Nat → List Nat → List (BitVec 32 × Value) → Prop
  | p, [], [] => p = none
  | p, a :: as, e :: es =>
    p = some a ∧ ∃ next, heap.cell a = some ⟨e.1, e.2, next⟩ ∧ Strings heap next as es
  | _, [], _ :: _ => False
  | _, _ :: _, [] => False

/-- The buckets hold the entries of a map, each at an address of its own. -/
structure Rep (m : HashBuckets capacity Value) (map : StringHashMap capacity Value)
    (cells : Nat → List Nat) : Prop where
  chain : ∀ i < capacity, Strings m.heap (m.buckets i) (cells i) (map.entries i)
  nodup : ∀ i < capacity, (cells i).Nodup
  apart : ∀ i < capacity, ∀ j < capacity, i ≠ j → ∀ a ∈ cells i, a ∉ cells j

section Strings

variable {heap heap' : CellStore (HashEntry Value)} {p : Option Nat} {as : List Nat}
  {es : List (BitVec 32 × Value)}

theorem Strings.live (h : Strings heap p as es) : ∀ a ∈ as, ∃ e, heap.cell a = some e := by
  induction as generalizing p es with
  | nil => exact fun a ha => absurd ha List.not_mem_nil
  | cons b as ih =>
    cases es with
    | nil => exact h.elim
    | cons e es =>
      obtain ⟨-, next, hcell, hrest⟩ := h
      intro a ha
      rcases List.mem_cons.mp ha with rfl | ha
      · exact ⟨_, hcell⟩
      · exact ih hrest a ha

theorem Strings.frame (h : Strings heap p as es) (hsame : ∀ a ∈ as, heap'.cell a = heap.cell a) :
    Strings heap' p as es := by
  induction as generalizing p es with
  | nil =>
    cases es with
    | nil => exact h
    | cons e es => exact h.elim
  | cons b as ih =>
    cases es with
    | nil => exact h.elim
    | cons e es =>
      obtain ⟨hp, next, hcell, hrest⟩ := h
      refine ⟨hp, next, ?_, ih hrest fun a ha => hsame a (List.mem_cons_of_mem _ ha)⟩
      rw [hsame b List.mem_cons_self, hcell]

/-- There is no entry, or the first one is at the first address. -/
theorem Strings.cases (h : Strings heap p as es) : (p = none ∧ as = [] ∧ es = []) ∨
    ∃ a as' e es' next, p = some a ∧ as = a :: as' ∧ es = e :: es' ∧
      heap.cell a = some ⟨e.1, e.2, next⟩ ∧ Strings heap next as' es' := by
  cases as with
  | nil =>
    cases es with
    | nil => exact Or.inl ⟨h, rfl, rfl⟩
    | cons e es => exact h.elim
  | cons a as =>
    cases es with
    | nil => exact h.elim
    | cons e es =>
      obtain ⟨hp, next, hcell, hrest⟩ := h
      exact Or.inr ⟨a, as, e, es, next, hp, rfl, rfl, hcell, hrest⟩

theorem getLoop_eq (hash : BitVec 32) {fuel : Nat} (h : Strings heap p as es) (hf : as.length ≤ fuel) :
    getLoop heap hash fuel p = .ok ((es.find? fun e => e.1 = hash).map Prod.snd) := by
  induction fuel generalizing p as es with
  | zero =>
    rcases h.cases with ⟨rfl, rfl, rfl⟩ | ⟨a, as, e, es, next, rfl, rfl, rfl, -⟩
    · rfl
    · cases hf
  | succ fuel ih =>
    rcases h.cases with ⟨rfl, rfl, rfl⟩ | ⟨a, as, e, es, next, rfl, rfl, rfl, hcell, hrest⟩
    · rfl
    · have hlen : as.length ≤ fuel := Nat.le_of_succ_le_succ hf
      rw [getLoop, CellStore.read_live hcell, Except.ok_bind]
      by_cases he : e.1 = hash
      · rw [if_pos he, List.find?_cons_of_pos (by simpa using he)]
        rfl
      · rw [if_neg he, List.find?_cons_of_neg (by simpa using he)]
        exact ih hrest hlen

theorem nthChain_eq (n : Nat) {fuel : Nat} (h : Strings heap p as es) (hf : as.length ≤ fuel)
    (count : Nat) : nthChain heap n fuel p count = .ok (StringHashMap.nthChain n es count) := by
  induction fuel generalizing p as es count with
  | zero =>
    rcases h.cases with ⟨rfl, rfl, rfl⟩ | ⟨a, as, e, es, next, rfl, rfl, rfl, -⟩
    · rfl
    · cases hf
  | succ fuel ih =>
    rcases h.cases with ⟨rfl, rfl, rfl⟩ | ⟨a, as, e, es, next, rfl, rfl, rfl, hcell, hrest⟩
    · rfl
    · have hlen : as.length ≤ fuel := Nat.le_of_succ_le_succ hf
      rw [nthChain, CellStore.read_live hcell, Except.ok_bind, StringHashMap.nthChain]
      by_cases hzero : e.1 ≠ 0
      · rw [if_pos hzero, if_pos hzero]
        by_cases hlast : count = n
        · rw [if_pos hlast, if_pos hlast]
          rfl
        · rw [if_neg hlast, if_neg hlast]
          exact ih hrest hlen (count + 1)
      · rw [if_neg hzero, if_neg hzero]
        exact ih hrest hlen count

/-- The walk of an insertion leaves the chain of the map after the insertion, and changes nothing else. -/
theorem insertLoop_eq {hash : BitVec 32} {value : Value} {newEntry a : Nat} (fuel : Nat)
    (hnew : heap.cell newEntry = some ⟨hash, value, none⟩) {e : BitVec 32 × Value}
    (h : Strings heap (some a) (a :: as) (e :: es)) (hnodup : (a :: as).Nodup)
    (hfree : newEntry ∉ a :: as) (hf : as.length < fuel) :
    ∃ heap' added, insertLoop hash newEntry heap fuel a = .ok heap' ∧
      Strings heap' (some a) (a :: as ++ added) (StringHashMap.insertChain (hash, value) (e :: es)) ∧
      (added = [] ∨ added = [newEntry]) ∧ (∀ b, b ∉ a :: as → heap'.cell b = heap.cell b) ∧
      heap'.next = heap.next := by
  induction fuel generalizing a as e es with
  | zero => exact absurd hf (Nat.not_lt_zero _)
  | succ fuel ih =>
    obtain ⟨-, next, hcell, hrest⟩ := h
    cases as with
    | nil =>
      cases es with
      | cons e' es => exact hrest.elim
      | nil =>
        obtain rfl : next = none := hrest
        have hne : newEntry ≠ a := fun he => hfree (by rw [he]; exact List.mem_cons_self)
        refine ⟨heap.adjust a fun e => { e with next := some newEntry }, [newEntry], ?_, ?_, Or.inr rfl,
          fun b hb => ?_, rfl⟩
        · rw [insertLoop, CellStore.read_live hcell, Except.ok_bind]
          exact CellStore.modify_live _ hcell
        · refine ⟨rfl, some newEntry, CellStore.adjust_cell_self _ hcell, rfl, none, ?_, rfl⟩
          rw [CellStore.adjust_cell_ne _ _ hne, hnew]
        · exact CellStore.adjust_cell_ne _ _ fun he => hb (by rw [he]; exact List.mem_cons_self)
    | cons a' as =>
      cases es with
      | nil => exact hrest.elim
      | cons e' es =>
        obtain ⟨rfl, hrest⟩ := hrest
        rw [insertLoop, CellStore.read_live hcell, Except.ok_bind, StringHashMap.insertChain]
        by_cases he : e.1 = hash
        · rw [if_pos he]
          refine ⟨heap, [], if_pos he, ?_, Or.inl rfl, fun _ _ => rfl, rfl⟩
          rw [List.append_nil]
          exact ⟨rfl, some a', hcell, rfl, hrest⟩
        · rw [if_neg he]
          obtain ⟨heap', added, hloop, hstrings, hadded, hsame, hnext⟩ := ih ⟨rfl, hrest⟩
            (List.nodup_cons.mp hnodup).2 (fun hmem => hfree (List.mem_cons_of_mem _ hmem))
            (by rw [List.length_cons] at hf; omega)
          refine ⟨heap', added, ?_, ⟨rfl, some a', ?_, hstrings⟩, hadded, fun b hb => ?_, hnext⟩
          · simp only [if_neg he]
            exact hloop
          · rw [hsame a (List.nodup_cons.mp hnodup).1, hcell]
          · exact hsame b fun hmem => hb (List.mem_cons_of_mem _ hmem)

end Strings

section Rep

variable {m : HashBuckets capacity Value} {map : StringHashMap capacity Value} {cells : Nat → List Nat}

theorem Rep.length_le (h : m.Rep map cells) {i : Nat} (hi : i < capacity) :
    (cells i).length ≤ m.heap.next := CellStore.length_le_next (h.nodup i hi) (h.chain i hi).live

theorem Rep.get (h : m.Rep map cells) (hc : 0 < capacity) (key : CString) : m.get key = .ok (map.get key) := by
  have hi := Nat.mod_lt (hashKey key).toNat hc
  have hlen := h.length_le hi
  exact getLoop_eq _ (h.chain _ hi) (by omega)

theorem Rep.nthBuckets (h : m.Rep map cells) (n : Nat) {buckets i : Nat} (hi : i + buckets ≤ capacity)
    (count : Nat) :
    m.nthBuckets n buckets i count = .ok (StringHashMap.nthBuckets map.entries n buckets i count) := by
  induction buckets generalizing i count with
  | zero => rfl
  | succ buckets ih =>
    have hlt : i < capacity := by omega
    have hlen := h.length_le hlt
    rw [HashBuckets.nthBuckets, nthChain_eq n (h.chain i hlt) (by omega), Except.ok_bind,
      StringHashMap.nthBuckets]
    cases StringHashMap.nthChain n (map.entries i) count with
    | error value => rfl
    | ok count => exact ih (by omega) count

theorem Rep.getNth (h : m.Rep map cells) (n : Nat) : m.getNth n = .ok (map.getNth n) :=
  h.nthBuckets n (Nat.le_of_eq (Nat.zero_add capacity)) 0

theorem Rep.fresh (h : m.Rep map cells) {i : Nat} (hi : i < capacity) : m.heap.next ∉ cells i := by
  intro hmem
  obtain ⟨e, he⟩ := (h.chain i hi).live _ hmem
  exact absurd (CellStore.lt_next he) (Nat.lt_irrefl _)

/-- A bucket that gets a new chain, at its old addresses and the new one. -/
theorem Rep.setChain (h : m.Rep map cells) {key : CString} {value : Value} {m' : HashBuckets capacity Value}
    (added : List Nat) (hindex : (hashKey key).toNat % capacity < capacity)
    (hadded : added = [] ∨ added = [m.heap.next])
    (hchain : Strings m'.heap (m'.buckets ((hashKey key).toNat % capacity))
      (cells ((hashKey key).toNat % capacity) ++ added)
      (StringHashMap.insertChain (hashKey key, value) (map.entries ((hashKey key).toNat % capacity))))
    (hother : ∀ i, i ≠ (hashKey key).toNat % capacity → m'.buckets i = m.buckets i)
    (hsame : ∀ b, b ∉ cells ((hashKey key).toNat % capacity) → b ≠ m.heap.next →
      m'.heap.cell b = m.heap.cell b) :
    m'.Rep (map.insert key value) (Function.update cells ((hashKey key).toNat % capacity)
      (cells ((hashKey key).toNat % capacity) ++ added)) := by
  generalize hk : (hashKey key).toNat % capacity = index at *
  have hentries : ∀ i, (map.insert key value).entries i = if i = index then
      StringHashMap.insertChain (hashKey key, value) (map.entries index) else map.entries i := by
    intro i
    show (if i = (hashKey key).toNat % capacity then _ else _) = _
    rw [hk]
    split
    next hi => rw [hi]
    next => rfl
  have hmem : ∀ a, a ∈ added → a = m.heap.next := by
    intro a ha
    rcases hadded with rfl | rfl
    · exact absurd ha List.not_mem_nil
    · exact List.mem_singleton.mp ha
  have hnot : ∀ i < capacity, ∀ a ∈ added, a ∉ cells i := by
    intro i hi a ha hold
    rw [hmem a ha] at hold
    exact h.fresh hi hold
  have hapart : ∀ j < capacity, j ≠ index → ∀ a ∈ cells index ++ added, a ∉ cells j := by
    intro j hj hne a ha
    rcases List.mem_append.mp ha with ha | ha
    · exact h.apart index hindex j hj (fun he => hne he.symm) a ha
    · exact hnot j hj a ha
  refine ⟨fun i hi => ?_, fun i hi => ?_, fun i hi j hj hne a ha => ?_⟩
  · rw [hentries]
    by_cases he : i = index
    · rw [if_pos he, he, Function.update_self]
      exact hchain
    · rw [if_neg he, Function.update_of_ne he, hother i he]
      refine (h.chain i hi).frame fun a ha => hsame a ?_ ?_
      · exact h.apart i hi index hindex he a ha
      · intro hnext
        rw [hnext] at ha
        exact h.fresh hi ha
  · by_cases he : i = index
    · rw [he, Function.update_self]
      refine List.nodup_append.mpr ⟨h.nodup index hindex, ?_, fun a ha b hb hab => ?_⟩
      · rcases hadded with rfl | rfl
        · exact List.nodup_nil
        · exact List.pairwise_singleton _ _
      · rw [hab] at ha
        exact hnot index hindex b hb ha
    · rw [Function.update_of_ne he]
      exact h.nodup i hi
  · by_cases hi' : i = index
    · have hj' : j ≠ index := fun he => hne (hi'.trans he.symm)
      rw [hi', Function.update_self] at ha
      rw [Function.update_of_ne hj']
      exact hapart j hj hj' a ha
    · rw [Function.update_of_ne hi'] at ha
      by_cases hj' : j = index
      · rw [hj', Function.update_self]
        exact fun hb => hapart i hi hi' a hb ha
      · rw [Function.update_of_ne hj']
        exact h.apart i hi j hj hne a ha

theorem Rep.insert (h : m.Rep map cells) (hc : 0 < capacity) (key : CString) (value : Value) :
    ∃ m' cells', m.insert key value = .ok m' ∧ m'.Rep (map.insert key value) cells' := by
  have hindex := Nat.mod_lt (hashKey key).toNat hc
  have hchain := h.chain _ hindex
  have hold : ∀ a ∈ cells ((hashKey key).toNat % capacity),
      (m.heap.alloc ⟨hashKey key, value, none⟩).cell a = m.heap.cell a := by
    intro a ha
    obtain ⟨e, he⟩ := hchain.live a ha
    rw [CellStore.alloc_cell_of_live _ he, he]
  have hframe := hchain.frame hold
  unfold HashBuckets.insert
  cases hentries : map.entries ((hashKey key).toNat % capacity) with
  | nil =>
    cases hcells : cells ((hashKey key).toNat % capacity) with
    | cons a as =>
      rw [hcells, hentries] at hchain
      exact hchain.elim
    | nil =>
      rw [hcells, hentries] at hchain
      have hbucket : m.buckets ((hashKey key).toNat % capacity) = none := hchain
      simp only [hbucket]
      refine ⟨_, _, rfl, h.setChain [m.heap.next] hindex (Or.inr rfl) ?_ (fun i hi => ?_)
        fun b _ hb => ?_⟩
      · simp only [hcells, hentries, Function.update_self]
        exact ⟨rfl, none, CellStore.alloc_cell_self _ _, rfl⟩
      · exact Function.update_of_ne hi _ _
      · exact if_neg hb
  | cons e es =>
    cases hcells : cells ((hashKey key).toNat % capacity) with
    | nil =>
      rw [hcells, hentries] at hchain
      exact hchain.elim
    | cons a as =>
      rw [hcells, hentries] at hframe
      have hbucket : m.buckets ((hashKey key).toNat % capacity) = some a := hframe.1
      have hlen := h.length_le hindex
      have hnodup := h.nodup _ hindex
      have hfresh := h.fresh hindex
      rw [hcells] at hlen hnodup hfresh
      rw [hbucket] at hframe
      obtain ⟨heap', added, hloop, hstrings, hadded, hsame, -⟩ := insertLoop_eq
        ((m.heap.alloc ⟨hashKey key, value, none⟩).next + 1)
        (CellStore.alloc_cell_self m.heap ⟨hashKey key, value, none⟩) hframe hnodup hfresh
        (by rw [List.length_cons] at hlen; rw [CellStore.alloc_next]; omega)
      simp only [hbucket, hloop]
      refine ⟨_, _, rfl, h.setChain added hindex hadded ?_ (fun _ _ => rfl) fun b hb hne => ?_⟩
      · simp only [hcells, hentries, hbucket]
        exact hstrings
      · rw [hcells] at hb
        exact (hsame b hb).trans (if_neg hne)

/-- A map in memory answers as the map it represents does. -/
theorem Rep.answers (h : m.Rep map cells) (hc : 0 < capacity) (calls : List (MapCall Value)) :
    m.answers calls = .ok (map.answers calls) := by
  induction calls generalizing m map cells with
  | nil => rfl
  | cons c calls ih =>
    rw [HashBuckets.answers]
    cases c with
    | insert key value =>
      obtain ⟨m', cells', hm', h'⟩ := h.insert hc key value
      simp only [call, hm', Except.ok_bind]
      show (m'.answers calls >>= _) = _
      rw [ih h']
      rfl
    | get key =>
      simp only [call, h.get hc key, Except.ok_bind]
      show (m.answers calls >>= _) = _
      rw [ih h]
      rfl
    | getNth n =>
      simp only [call, h.getNth n, Except.ok_bind]
      show (m.answers calls >>= _) = _
      rw [ih h]
      rfl

end Rep

/-- Two contents of the block for the bucket array: in every heap, a map that is made in the block answers
all sequences of calls in the same way, and has no key at first. -/
def AnswerAlike (capacity : Nat) (Value : Type) (prior prior' : Nat → Option Nat) : Prop :=
  ∀ heap : CellStore (HashEntry Value),
    (∀ calls, ∃ rs, (construct prior heap : HashBuckets capacity Value).answers calls = .ok rs ∧
      (construct prior' heap : HashBuckets capacity Value).answers calls = .ok rs) ∧
    ∀ key, (construct prior heap : HashBuckets capacity Value).get key = .ok none ∧
      (construct prior' heap : HashBuckets capacity Value).get key = .ok none

/-- The block is all null pointers. -/
def Cleared (capacity : Nat) (prior : Nat → Option Nat) : Prop := ∀ i < capacity, prior i = none

theorem construct_rep {prior : Nat → Option Nat} (h : Cleared capacity prior)
    (heap : CellStore (HashEntry Value)) :
    (construct prior heap : HashBuckets capacity Value).Rep StringHashMap.new fun _ => [] :=
  ⟨h, fun _ _ => List.nodup_nil, fun _ _ _ _ _ _ ha => absurd ha List.not_mem_nil⟩

/-- Where no entry lives, `get_nth` faults at the first pointer that is not null. -/
theorem nthBuckets_faults {prior : Nat → Option Nat} (n : Nat) {buckets i j : Nat} (hi : i ≤ j)
    (hj : j < i + buckets) (h : prior j ≠ none) (count : Nat) :
    (construct prior CellStore.empty : HashBuckets capacity Value).nthBuckets n buckets i count =
      .error .useAfterFree := by
  induction buckets generalizing i count with
  | zero => omega
  | succ buckets ih =>
    rw [nthBuckets]
    cases hp : prior i with
    | some a =>
      have hchain : nthChain (CellStore.empty : CellStore (HashEntry Value)) n 1 (some a) count =
          .error .useAfterFree := rfl
      simp only [construct, hp, CellStore.empty_next, hchain, Except.error_bind]
    | none =>
      have hne : i ≠ j := by
        intro he
        rw [he] at hp
        exact h hp
      have hchain : nthChain (CellStore.empty : CellStore (HashEntry Value)) n 1 none count =
          .ok (.ok count) := rfl
      simp only [construct, hp, CellStore.empty_next, hchain, Except.ok_bind]
      exact ih (by omega) (by omega) count

/-- Two contents of the block are answered alike exactly when both are all null pointers. -/
theorem answerAlike_iff (hc : 0 < capacity) (prior prior' : Nat → Option Nat) :
    AnswerAlike capacity Value prior prior' ↔ Cleared capacity prior ∧ Cleared capacity prior' := by
  have hcleared : ∀ prior : Nat → Option Nat, (∃ rs, (construct prior CellStore.empty :
      HashBuckets capacity Value).answers [.getNth 0] = .ok rs) → Cleared capacity prior := by
    intro prior h i hi
    by_contra hne
    obtain ⟨rs, hrs⟩ := h
    have hfault : (construct prior CellStore.empty : HashBuckets capacity Value).getNth 0 =
        .error .useAfterFree := nthBuckets_faults 0 (Nat.zero_le i) (by omega) hne 0
    simp only [answers, call, hfault, Except.error_bind] at hrs
    cases hrs
  constructor
  · intro h
    obtain ⟨rs, hrs, hrs'⟩ := (h CellStore.empty).1 [.getNth 0]
    exact ⟨hcleared prior ⟨rs, hrs⟩, hcleared prior' ⟨rs, hrs'⟩⟩
  · intro h heap
    have hrep : (construct prior heap : HashBuckets capacity Value).Rep StringHashMap.new fun _ => [] :=
      construct_rep h.1 heap
    have hrep' : (construct prior' heap : HashBuckets capacity Value).Rep StringHashMap.new fun _ => [] :=
      construct_rep h.2 heap
    refine ⟨fun calls => ⟨_, hrep.answers hc calls, hrep'.answers hc calls⟩, fun key => ⟨?_, ?_⟩⟩
    · exact hrep.get hc key
    · exact hrep'.get hc key

/-- Two blocks for the children of a directory that hold null pointers, and differ behind the array. -/
theorem answerAlike_children : 0 < 256 ∧
    AnswerAlike 256 Nat (fun _ => none) (fun i => if i < 256 then none else some i) := by
  refine ⟨by decide, (answerAlike_iff (by decide) _ _).mpr ⟨fun i _ => rfl, fun i hi => ?_⟩⟩
  exact if_pos hi

/-- A cleared block, and one in which a pointer to an entry of another map is left: the new directory has
the key of that entry. -/
theorem recycled_block_differs : ¬∀ prior prior' : Nat → Option Nat, AnswerAlike 256 Nat prior prior' := by
  intro h
  obtain ⟨-, hnone⟩ := (h (fun _ => none) (fun i => if i = 5 then some 0 else none)
    (CellStore.empty.alloc ⟨5381#32, 7, none⟩)).2 []
  have hsome : (construct (fun i => if i = 5 then some 0 else none)
      (CellStore.empty.alloc ⟨5381#32, 7, none⟩) : HashBuckets 256 Nat).get [] = .ok (some 7) := rfl
  cases hnone.symm.trans hsome

end HashBuckets

end UmbraOS
