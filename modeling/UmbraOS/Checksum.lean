import Mathlib.Algebra.Order.BigOperators.Group.List
import UmbraOS.OnesComplement
import UmbraOS.UdpSocket

namespace UmbraOS

namespace Socket

open OnesComplement Traced

/-- The first `n` words of a buffer as the processor loads them. -/
def wordsAt (data : Memory) (ptr n : Nat) : List Nat :=
  (List.range n).map fun k => (word data (ptr + 2 * k)).value.toNat

/-- The same words in network order. -/
def netWordsAt (data : Memory) (ptr n : Nat) : List Nat :=
  (List.range n).map fun k => (netWord data (ptr + 2 * k)).value.toNat

/-- Memory after a store to a 16-bit field. -/
def storeWord (data : Memory) (i : Nat) (w : BitVec 16) : Memory :=
  data.copy i 2 fun k => BitVec.ofNat 8 (w.toNat / 256 ^ k)

theorem word_toNat (data : Memory) (i : Nat) :
    (word data i).value.toNat = (data i).toNat + (data (i + 1)).toNat * 256 := by
  have hlow := (data i).isLt
  have hhigh := (data (i + 1)).isLt
  simp only [word, value_bind, byte_value, value_pure, BitVec.toNat_ofNat]
  omega

theorem word_storeWord (data : Memory) (i : Nat) (w : BitVec 16) :
    (word (storeWord data i w) i).value = w := by
  have hw := w.isLt
  have hlow : storeWord data i w i = BitVec.ofNat 8 (w.toNat / 256 ^ 0) :=
    Memory.copy_inside data _ (by decide : 0 < 2)
  have hhigh : storeWord data i w (i + 1) = BitVec.ofNat 8 (w.toNat / 256 ^ 1) :=
    Memory.copy_inside data _ (by decide : 1 < 2)
  apply BitVec.eq_of_toNat_eq
  rw [word_toNat, hlow, hhigh, BitVec.toNat_ofNat, BitVec.toNat_ofNat]
  omega

theorem word_storeWord_ne (data : Memory) {i j : Nat} (w : BitVec 16) (h : j + 2 ≤ i ∨ i + 2 ≤ j) :
    (word (storeWord data i w) j).value = (word data j).value :=
  word_congr (Memory.copy_outside data _ (by omega)) (Memory.copy_outside data _ (by omega))

theorem wordsAt_succ (data : Memory) (ptr n : Nat) :
    wordsAt data ptr (n + 1) = wordsAt data ptr n ++ [(word data (ptr + 2 * n)).value.toNat] := by
  rw [wordsAt, List.range_succ, List.map_append, List.map_singleton, wordsAt]

theorem wordsAt_le (data : Memory) (ptr n : Nat) : ∀ x ∈ wordsAt data ptr n, x ≤ 65535 := by
  intro x hx
  obtain ⟨k, -, rfl⟩ := List.mem_map.mp hx
  have hlt := (word data (ptr + 2 * k)).value.isLt
  omega

theorem wordsAt_sum_le (data : Memory) (ptr n : Nat) : (wordsAt data ptr n).sum ≤ n * 65535 := by
  have hle := List.sum_le_card_nsmul _ _ (wordsAt_le data ptr n)
  rwa [wordsAt, List.length_map, List.length_range, Nat.nsmul_eq_mul] at hle

/-- The loop goes on from what it has added up. -/
theorem sumWords_add (data : Memory) (n i ptr : Nat) (checksum : BitVec 32) :
    (sumWords data (2 * n + i) ptr checksum).value =
      (sumWords data i (ptr + 2 * n) (sumWords data (2 * n) ptr checksum).value).value := by
  induction n generalizing ptr checksum with
  | zero => simp [sumWords]
  | succ n ih =>
    rw [show 2 * (n + 1) + i = 2 * n + i + 2 by omega, show 2 * (n + 1) = 2 * n + 2 by omega,
      sumWords, value_bind, sumWords, value_bind, ih, ← Nat.add_assoc, Nat.add_right_comm]

/-- The 32-bit accumulator does not wrap around. -/
theorem sumWords_toNat (data : Memory) (ptr : Nat) {n : Nat} (hn : n ≤ 65537) :
    (sumWords data (2 * n) ptr 0#32).value.toNat = (wordsAt data ptr n).sum := by
  induction n with
  | zero => rfl
  | succ n ih =>
    have hsum := wordsAt_sum_le data ptr (n + 1)
    have hlast : (sumWords data (2 * (n + 1)) ptr 0#32).value =
        (sumWords data (2 * n) ptr 0#32).value + (word data (ptr + 2 * n)).value.zeroExtend 32 := by
      rw [Nat.mul_succ, sumWords_add, sumWords, value_bind, sumWords, value_pure]
      omega
    rw [wordsAt_succ, List.sum_append, List.sum_singleton] at hsum ⊢
    rw [hlast, BitVec.toNat_add, ih (by omega), BitVec.toNat_setWidth_of_le (by decide)]
    exact Nat.mod_eq_of_lt (by omega)

/-- The two halves of a sum of 32 bits, added with end-around carry. -/
theorem halves_carried {sum : Nat} (h : sum < 2 ^ 32) :
    Carried 65535 sum (OnesComplement.add 65535 (sum % 65536) (sum / 65536)) :=
  Carried.split (Carried.add (.self (by omega)) (.self (by omega)))

theorem halves_toNat (sum : BitVec 32) :
    ((sum &&& 0xffff#32) + (sum >>> 16)).toNat = sum.toNat % 65536 + sum.toNat / 65536 := by
  have hlt := sum.isLt
  rw [BitVec.toNat_add, BitVec.toNat_and, BitVec.toNat_ushiftRight, Nat.shiftRight_eq_div_pow,
    show (0xffff#32).toNat = 2 ^ 16 - 1 by decide, Nat.and_two_pow_sub_one_eq_mod]
  omega

/-- One fold and a comparison are an end-around carry. -/
theorem foldSum_carried (checksum : BitVec 32) :
    Carried 65535 checksum.toNat (65535 - (foldSum checksum).toNat) := by
  have hlt := checksum.isLt
  have hvalue : 65535 - (foldSum checksum).toNat =
      OnesComplement.add 65535 (checksum.toNat % 65536) (checksum.toNat / 65536) := by
    unfold foldSum OnesComplement.add
    simp only [halves_toNat]
    split
    next hover =>
      rw [BitVec.toNat_setWidth, BitVec.toNat_not, BitVec.toNat_add, halves_toNat,
        show (1 : BitVec 32).toNat = 1 from rfl]
      omega
    next hfits =>
      rw [BitVec.toNat_setWidth, BitVec.toNat_not, halves_toNat]
      omega
  rw [hvalue]
  exact halves_carried hlt

/-- `get_checksum` is the complement of the one's complement sum of the words. -/
theorem getChecksum_carried (data : Memory) (ptr : Nat) {n : Nat} (hn : n ≤ 65537) :
    Carried 65535 (wordsAt data ptr n).sum (65535 - (getChecksum data ptr (2 * n)).value.toNat) := by
  rw [← sumWords_toNat data ptr hn, getChecksum, value_bind, value_pure]
  exact foldSum_carried _

theorem getChecksum_toNat (data : Memory) (ptr : Nat) {n : Nat} (hn : n ≤ 65537) :
    (getChecksum data ptr (2 * n)).value.toNat =
      65535 - OnesComplement.sum 65535 (wordsAt data ptr n) := by
  have hlt := (getChecksum data ptr (2 * n)).value.isLt
  have hsum := (getChecksum_carried data ptr hn).unique (sum_carried (wordsAt_le data ptr n))
  omega

theorem bswap16_toNat (w : BitVec 16) :
    (bswap16 w).toNat = w.toNat / 256 + w.toNat % 256 * 256 := by
  have hw := w.isLt
  rw [bswap16, BitVec.toNat_ofNat]
  omega

/-- Swapping the bytes of a word multiplies it by 256 modulo the largest word. -/
theorem bswap16_carried (w : BitVec 16) : Carried 65535 (256 * w.toNat) (bswap16 w).toNat := by
  have hw := w.isLt
  rw [bswap16_toNat]
  refine ⟨?_, ?_, ?_⟩ <;> omega

/-- The words in network order add up to the sum with its bytes swapped. -/
theorem netWordsAt_carried (data : Memory) (ptr n : Nat) :
    Carried 65535 (256 * (wordsAt data ptr n).sum) (OnesComplement.sum 65535 (netWordsAt data ptr n)) := by
  unfold netWordsAt OnesComplement.sum
  rw [List.foldl_map]
  induction n with
  | zero => exact .self (Nat.zero_le _)
  | succ n ih =>
    rw [List.range_succ, List.foldl_append, List.foldl_cons, List.foldl_nil, wordsAt_succ,
      List.sum_append, List.sum_singleton, Nat.mul_add]
    exact ih.add (bswap16_carried _)

theorem bswap16_complement (w : BitVec 16) :
    Carried 65535 (256 * (65535 - w.toNat)) (65535 - (bswap16 w).toNat) := by
  have hw := w.isLt
  rw [bswap16_toNat]
  refine ⟨?_, ?_, ?_⟩ <;> omega

/-- The checksum of the words in network order has the same bytes in memory. -/
theorem bswap16_getChecksum (data : Memory) (ptr : Nat) {n : Nat} (hn : n ≤ 65537) :
    (bswap16 (getChecksum data ptr (2 * n)).value).toNat =
      65535 - OnesComplement.sum 65535 (netWordsAt data ptr n) := by
  have hlt := (bswap16 (getChecksum data ptr (2 * n)).value).isLt
  have hcomplement := bswap16_complement (getChecksum data ptr (2 * n)).value
  have hsum := ((getChecksum_carried data ptr hn).mul 256 hcomplement).unique (netWordsAt_carried data ptr n)
  omega

theorem wordsAt_storeWord (data : Memory) (ptr n k : Nat) (w : BitVec 16) :
    wordsAt (storeWord data (ptr + 2 * k) w) ptr n = (wordsAt data ptr n).set k w.toNat := by
  apply List.ext_getElem
  · rw [List.length_set, wordsAt, wordsAt, List.length_map, List.length_map]
  · intro i hi hi'
    rw [List.getElem_set]
    simp only [wordsAt, List.getElem_map, List.getElem_range]
    split
    next hik => rw [← hik, word_storeWord]
    next hik => rw [word_storeWord_ne data w (by omega)]

/-- `get_checksum` of a buffer of even length is its Internet checksum: the accumulator holds the sum
of the words, the result is the complement of their sum with end-around carry, in either byte
order, and stored in a zero word it makes the sum of the buffer 0xffff. -/
theorem getChecksum_exact (data : Memory) (ptr size : Nat) (heven : size % 2 = 0)
    (hsize : size ≤ 131074) :
    (∀ n, 2 * n ≤ size →
      (sumWords data (2 * n) ptr 0#32).value.toNat = (wordsAt data ptr n).sum) ∧
    (getChecksum data ptr size).value.toNat =
      65535 - OnesComplement.sum 65535 (wordsAt data ptr (size / 2)) ∧
    (bswap16 (getChecksum data ptr size).value).toNat =
      65535 - OnesComplement.sum 65535 (netWordsAt data ptr (size / 2)) ∧
    ∀ k, k < size / 2 → (word data (ptr + 2 * k)).value = 0#16 →
      OnesComplement.sum 65535
        (wordsAt (storeWord data (ptr + 2 * k) (getChecksum data ptr size).value) ptr (size / 2)) =
      0xffff := by
  obtain ⟨n, rfl⟩ : ∃ n, size = 2 * n := ⟨size / 2, by omega⟩
  have hn : n ≤ 65537 := by omega
  rw [Nat.mul_div_cancel_left n (by decide)]
  refine ⟨fun k hk => sumWords_toNat data ptr (by omega), getChecksum_toNat data ptr hn,
    bswap16_getChecksum data ptr hn, fun k hk hzero => ?_⟩
  have hlt := (getChecksum data ptr (2 * n)).value.isLt
  have hklt : k < (wordsAt data ptr n).length := by rwa [wordsAt, List.length_map, List.length_range]
  have hword : (wordsAt data ptr n)[k] = 0 := by
    simp only [wordsAt, List.getElem_map, List.getElem_range, hzero, BitVec.toNat_ofNat,
      Nat.zero_mod]
  have htotal : ((wordsAt data ptr n).set k (getChecksum data ptr (2 * n)).value.toNat).sum =
      (wordsAt data ptr n).sum + (getChecksum data ptr (2 * n)).value.toNat := by
    have hold := List.sum_set (wordsAt data ptr n) k (wordsAt data ptr n)[k]
    rw [List.set_getElem_self, if_pos hklt, hword] at hold
    rw [List.sum_set, if_pos hklt, hold]
    omega
  have hstored := sum_carried (wordsAt_le (storeWord data (ptr + 2 * k)
    (getChecksum data ptr (2 * n)).value) ptr n)
  have hfull := (getChecksum_carried data ptr hn).complement
  rw [wordsAt_storeWord, htotal] at hstored
  rw [Nat.sub_sub_self (by omega)] at hfull
  rw [wordsAt_storeWord]
  exact hstored.unique hfull

/-- A header whose checksum word is zero. -/
theorem getChecksum_exact_four :
    4 % 2 = 0 ∧ 4 ≤ 131074 ∧
      (word (bufferAt [0x12#8, 0x34#8, 0#8, 0#8]) (0 + 2 * 1)).value = 0#16 ∧
      OnesComplement.sum 65535 (wordsAt (storeWord (bufferAt [0x12#8, 0x34#8, 0#8, 0#8]) (0 + 2 * 1)
        (getChecksum (bufferAt [0x12#8, 0x34#8, 0#8, 0#8]) 0 4).value) 0 (4 / 2)) = 0xffff :=
  ⟨rfl, by decide, rfl,
    (getChecksum_exact (bufferAt [0x12#8, 0x34#8, 0#8, 0#8]) 0 4 rfl (by decide)).2.2.2 1
      (by decide) rfl⟩

end Socket

end UmbraOS
