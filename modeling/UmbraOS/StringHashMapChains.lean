import UmbraOS.Runs
import UmbraOS.StringHashMapGet
import Mathlib.Data.List.Induction

namespace UmbraOS

namespace StringHashMap

variable {capacity : Nat} {Value : Type}

/-- The chain of a map that a key belongs to. -/
def chainOf (map : StringHashMap capacity Value) (key : CString) : List (BitVec 32 × Value) :=
  map.entries ((hashKey key).toNat % capacity)

/-- No chain has two entries of one hash. -/
def Distinct (map : StringHashMap capacity Value) : Prop :=
  ∀ i, ((map.entries i).map Prod.fst).Nodup

/-- The chain of a key has an entry of its hash. -/
def Present (map : StringHashMap capacity Value) (key : CString) : Prop :=
  hashKey key ∈ (map.chainOf key).map Prod.fst

/-- The last entry of the chain of a key, which `insert` does not compare, has another hash. -/
def LastDiffers (map : StringHashMap capacity Value) (key : CString) : Prop :=
  ∀ e, (map.chainOf key).getLast? = some e → e.1 ≠ hashKey key

section Chain

variable {entry : BitVec 32 × Value} {chain : List (BitVec 32 × Value)}

theorem insertChain_of_present (h : entry.1 ∈ chain.map Prod.fst)
    (hlast : ∀ e, chain.getLast? = some e → e.1 ≠ entry.1) : insertChain entry chain = chain := by
  induction chain using insertChain.induct with
  | entry => exact entry
  | case1 => cases h
  | case2 last => exact absurd (List.mem_singleton.mp h).symm (hlast last rfl)
  | case3 e next es he => rw [insertChain, if_pos he]
  | case4 e next es he ih =>
    rw [List.map_cons, List.mem_cons] at h
    have hrest := h.resolve_left fun hfirst => he hfirst.symm
    have hlast' : ∀ e', (next :: es).getLast? = some e' → e'.1 ≠ entry.1 := by
      intro e' hlast''
      apply hlast
      rw [List.getLast?_cons_cons]
      exact hlast''
    rw [insertChain, if_neg he, ih hrest hlast']

/-- A chain whose last entry has the hash gets a second one. -/
theorem insertChain_of_last {last : BitVec 32 × Value} (hd : (chain.map Prod.fst).Nodup)
    (hlast : chain.getLast? = some last) (h : last.1 = entry.1) :
    insertChain entry chain = chain ++ [entry] := by
  induction chain using insertChain.induct with
  | entry => exact entry
  | case1 => cases hlast
  | case2 only => rfl
  | case3 e next es he =>
    rw [List.getLast?_cons_cons] at hlast
    rw [List.map_cons, List.nodup_cons] at hd
    refine absurd ?_ hd.1
    rw [he, ← h]
    exact List.mem_map_of_mem (List.mem_of_getLast? hlast)
  | case4 e next es he ih =>
    rw [List.getLast?_cons_cons] at hlast
    rw [List.map_cons, List.nodup_cons] at hd
    rw [insertChain, if_neg he, ih hd.2 hlast]
    rfl

end Chain

variable {map : StringHashMap capacity Value} {key : CString}

theorem insert_chainOf (map : StringHashMap capacity Value) (key : CString) (value : Value) :
    (map.insert key value).chainOf key = insertChain (hashKey key, value) (map.chainOf key) := by
  simp only [chainOf, insert, if_true]

theorem insert_other (map : StringHashMap capacity Value) (key : CString) (value : Value) {i : Nat}
    (h : i ≠ (hashKey key).toNat % capacity) : (map.insert key value).entries i = map.entries i := if_neg h

theorem insert_of_present (h : map.Present key) (hlast : map.LastDiffers key) (value : Value) :
    map.insert key value = map := by
  have hsame : insertChain (hashKey key, value) (map.chainOf key) = map.chainOf key :=
    insertChain_of_present h hlast
  have hchain := insert_chainOf map key value
  rw [hsame] at hchain
  have hentries : (map.insert key value).entries = map.entries := by
    funext i
    by_cases hi : i = (hashKey key).toNat % capacity
    · rw [hi]
      exact hchain
    · exact insert_other map key value hi
  show (⟨(map.insert key value).entries⟩ : StringHashMap capacity Value) = ⟨map.entries⟩
  rw [hentries]

theorem Distinct.insert (h : map.Distinct) (hlast : map.LastDiffers key) (value : Value) :
    (map.insert key value).Distinct := by
  by_cases hp : map.Present key
  · rw [insert_of_present hp hlast]
    exact h
  · intro i
    by_cases hi : i = (hashKey key).toNat % capacity
    · have habsent : (hashKey key, value).1 ∉ (map.chainOf key).map Prod.fst := hp
      have hchain := insert_chainOf map key value
      rw [insertChain_of_absent (lookup_eq_none.mpr habsent)] at hchain
      have hold := h ((hashKey key).toNat % capacity)
      rw [hi]
      show (((map.insert key value).chainOf key).map Prod.fst).Nodup
      rw [hchain, List.map_append, List.nodup_append]
      refine ⟨hold, List.pairwise_singleton _ _, ?_⟩
      intro a ha b hb hab
      rw [List.mem_singleton.mp hb] at hab
      rw [hab] at ha
      exact hp ha
    · rw [insert_other map key value hi]
      exact h i

theorem new_distinct : (new : StringHashMap capacity Value).Distinct := fun _ => List.nodup_nil

/-- Along a sequence of insertions no chain has two entries of one hash, and a key whose hash is there
changes nothing. -/
def KeepsChains (capacity : Nat) (inserts : List (CString × Value)) : Prop :=
  (∀ done, done <+: inserts → (insertAll done (new : StringHashMap capacity Value)).Distinct) ∧
    ∀ done e, done ++ [e] <+: inserts →
      (insertAll done (new : StringHashMap capacity Value)).Present e.1 →
        (insertAll done (new : StringHashMap capacity Value)).insert e.1 e.2 = insertAll done new

/-- The insertions of the sequence never meet their own hash in the last entry of a chain. -/
def LastsDiffer (capacity : Nat) (inserts : List (CString × Value)) : Prop :=
  StepsMeet (fun map e => map.insert e.1 e.2) (fun map e => map.LastDiffers e.1)
    (new : StringHashMap capacity Value) inserts

/-- The chains of a map are kept by a sequence of insertions exactly when none of them has the hash of the
last entry of its chain. -/
theorem keepsChains_iff (capacity : Nat) (inserts : List (CString × Value)) :
    KeepsChains capacity inserts ↔ LastsDiffer capacity inserts := by
  constructor
  · intro h
    obtain ⟨hdistinct, hkeep⟩ := h
    induction inserts using List.reverseRecOn with
    | nil => trivial
    | append_singleton inserts e ih =>
      have hdone : inserts <+: inserts ++ [e] := List.prefix_append inserts [e]
      have hbefore := ih (fun done hd => hdistinct done (hd.trans hdone))
        fun done e' hd => hkeep done e' (hd.trans hdone)
      refine stepsMeet_append.mpr ⟨hbefore, ?_, trivial⟩
      intro last hlast he
      have hmap := hdistinct inserts hdone
      have hpresent : (insertAll inserts (new : StringHashMap capacity Value)).Present e.1 := by
        unfold Present
        rw [← he]
        exact List.mem_map_of_mem (List.mem_of_getLast? hlast)
      have hsame := hkeep inserts e List.prefix_rfl hpresent
      -- the insertion appends a second entry of the hash instead
      have hchain := insert_chainOf (insertAll inserts (new : StringHashMap capacity Value)) e.1 e.2
      have htwice : insertChain (hashKey e.1, e.2) ((insertAll inserts new).chainOf e.1) =
          (insertAll inserts (new : StringHashMap capacity Value)).chainOf e.1 ++ [(hashKey e.1, e.2)] :=
        insertChain_of_last (hmap _) hlast he
      rw [hsame, htwice] at hchain
      exact absurd hchain.symm (by simp)
  · intro h
    have hdistinct : ∀ done, done <+: inserts →
        (insertAll done (new : StringHashMap capacity Value)).Distinct := fun done hdone =>
      (StepsMeet.of_prefix h hdone).invariant (fun _ e hmap hlast => hmap.insert hlast e.2) new_distinct
    refine ⟨hdistinct, fun done e hdone hpresent => ?_⟩
    have hlast := (stepsMeet_append.mp (StepsMeet.of_prefix h hdone)).2.1
    exact insert_of_present hpresent hlast e.2

/-- A key that is inserted twice has two entries. -/
theorem insert_twice : ¬∀ (capacity : Nat) (inserts : List (CString × Nat)), KeepsChains capacity inserts := by
  intro h
  have hdistinct := (h 256 [([97#8], 0), ([97#8], 0)]).1 _ List.prefix_rfl
  have hchain := hdistinct ((hashKey [97#8]).toNat % 256)
  exact absurd hchain (by decide)

end StringHashMap

end UmbraOS
