import Mathlib.Data.Nat.Log
import UmbraOS.CString

namespace UmbraOS

/-- The memory around a buffer, by offset from its start, and the offsets that were written. -/
structure Buffer where
  bytes : Memory
  writes : List Nat

namespace Buffer

def store (b : Buffer) (i : Nat) (c : Byte) : Buffer := ⟨b.bytes.fill i 1 c, b.writes ++ [i]⟩

def swap (b : Buffer) (i j : Nat) : Buffer :=
  let temp := b.bytes i
  (b.store i (b.bytes j)).store j temp

/-- "Reverse the buffer in place": the `length` characters at `p`. -/
def reverse (b : Buffer) (p length : Nat) : Buffer :=
  (List.range (length / 2)).foldl (fun b i => b.swap (p + i) (p + (length - i - 1))) b

/-- `text` is written at `p`, and nothing else. -/
structure Emits (b b' : Buffer) (p : Nat) (text : CString) : Prop where
  inside : ∀ i c, text[i]? = some c → b'.bytes (p + i) = c
  outside : ∀ x, x < p ∨ p + text.length ≤ x → b'.bytes x = b.bytes x
  writes : ∀ x, x ∈ b'.writes ↔ x ∈ b.writes ∨ (p ≤ x ∧ x < p + text.length)

variable {b b' b'' : Buffer} {p : Nat} {text text' : CString}

theorem store_same (b : Buffer) (i : Nat) (c : Byte) : (b.store i c).bytes i = c :=
  Memory.fill_inside _ _ (Nat.le_refl i) (Nat.lt_succ_self i)

theorem store_other (b : Buffer) {i x : Nat} (c : Byte) (h : x ≠ i) :
    (b.store i c).bytes x = b.bytes x := by
  apply Memory.fill_outside
  omega

theorem mem_store_writes (b : Buffer) (i x : Nat) (c : Byte) :
    x ∈ (b.store i c).writes ↔ x ∈ b.writes ∨ x = i := by
  simp [store]

theorem Emits.refl (b : Buffer) (p : Nat) : Emits b b p [] := by
  refine ⟨fun i c h => ?_, fun x _ => rfl, fun x => ?_⟩
  · simp at h
  · simp

theorem Emits.store (b : Buffer) (p : Nat) (c : Byte) : Emits b (b.store p c) p [c] := by
  refine ⟨fun i d h => ?_, fun x hx => ?_, fun x => ?_⟩
  · obtain ⟨rfl, rfl⟩ : i = 0 ∧ c = d := by simpa [List.getElem?_singleton] using h
    exact store_same b p c
  · apply store_other
    simp only [List.length_singleton] at hx
    omega
  · rw [mem_store_writes, List.length_singleton, Nat.lt_succ_iff, ← Nat.le_antisymm_iff, eq_comm (a := p)]

theorem Emits.append (h : Emits b b' p text) (h' : Emits b' b'' (p + text.length) text') :
    Emits b b'' p (text ++ text') := by
  refine ⟨fun i c hc => ?_, fun x hx => ?_, fun x => ?_⟩
  · by_cases hi : i < text.length
    · rw [List.getElem?_append_left hi] at hc
      rw [h'.outside _ (Or.inl (by omega))]
      exact h.inside i c hc
    · rw [List.getElem?_append_right (Nat.le_of_not_lt hi)] at hc
      have hinside := h'.inside _ c hc
      rw [show p + text.length + (i - text.length) = p + i by omega] at hinside
      exact hinside
  · rw [List.length_append] at hx
    rw [h'.outside x (by omega), h.outside x (by omega)]
  · rw [h'.writes, h.writes, List.length_append, or_assoc]
    apply or_congr_right
    omega

theorem swap_bytes (b : Buffer) (i j x : Nat) :
    (b.swap i j).bytes x = if x = j then b.bytes i else if x = i then b.bytes j else b.bytes x := by
  unfold swap
  split
  next hj =>
    rw [hj]
    exact store_same _ j _
  next hj =>
    rw [store_other _ _ hj]
    split
    next hi =>
      rw [hi]
      exact store_same _ i _
    next hi => exact store_other _ _ hi

theorem mem_swap_writes (b : Buffer) (i j x : Nat) :
    x ∈ (b.swap i j).writes ↔ x ∈ b.writes ∨ x = i ∨ x = j := by
  unfold swap
  rw [mem_store_writes, mem_store_writes, or_assoc]

/-- After `k` swaps the first and the last `k` characters are in place. -/
theorem swaps_bytes (b : Buffer) (p : Nat) {length k i : Nat} (hk : k ≤ length / 2) (hi : i < length) :
    ((List.range k).foldl (fun b i => b.swap (p + i) (p + (length - i - 1))) b).bytes (p + i) =
      if i < k ∨ length - k ≤ i then b.bytes (p + (length - i - 1)) else b.bytes (p + i) := by
  induction k generalizing i with
  | zero => rw [if_neg (by omega)]; rfl
  | succ k ih =>
    rw [List.range_succ, List.foldl_append, List.foldl_cons, List.foldl_nil, swap_bytes]
    by_cases hlast : i = length - k - 1
    · rw [if_pos (by omega), if_pos (by omega), ih (by omega) (by omega), if_neg (by omega)]
      congr 1
      omega
    · rw [if_neg (by omega)]
      by_cases hfirst : i = k
      · rw [if_pos (by omega), if_pos (by omega), ih (by omega) (by omega), if_neg (by omega), hfirst]
      · rw [if_neg (by omega), ih (by omega) hi]
        congr 1
        apply propext
        omega

theorem swaps_outside (b : Buffer) (p : Nat) {length k x : Nat} (hk : k ≤ length / 2)
    (hx : x < p ∨ p + length ≤ x) :
    ((List.range k).foldl (fun b i => b.swap (p + i) (p + (length - i - 1))) b).bytes x = b.bytes x := by
  induction k with
  | zero => rfl
  | succ k ih =>
    rw [List.range_succ, List.foldl_append, List.foldl_cons, List.foldl_nil, swap_bytes,
      if_neg (by omega), if_neg (by omega)]
    exact ih (by omega)

theorem mem_swaps_writes {p length k : Nat} (hk : k ≤ length / 2)
    (hwritten : ∀ x, p ≤ x → x < p + length → x ∈ b.writes) (x : Nat) :
    x ∈ ((List.range k).foldl (fun b i => b.swap (p + i) (p + (length - i - 1))) b).writes ↔
      x ∈ b.writes := by
  induction k with
  | zero => exact Iff.rfl
  | succ k ih =>
    rw [List.range_succ, List.foldl_append, List.foldl_cons, List.foldl_nil, mem_swap_writes, ih (by omega)]
    constructor
    · rintro (h | rfl | rfl)
      · exact h
      · exact hwritten _ (by omega) (by omega)
      · exact hwritten _ (by omega) (by omega)
    · exact Or.inl

theorem Emits.reverse (h : Emits b b' p text) : Emits b (b'.reverse p text.length) p text.reverse := by
  refine ⟨fun i c hc => ?_, fun x hx => ?_, fun x => ?_⟩
  · have hi : i < text.length := by
      have := (List.getElem?_eq_some_iff.mp hc).1
      rwa [List.length_reverse] at this
    have hread : b'.bytes (p + (text.length - i - 1)) = c := by
      apply h.inside
      rw [List.getElem?_reverse hi] at hc
      rw [Nat.sub_right_comm]
      exact hc
    unfold Buffer.reverse
    rw [swaps_bytes b' p (Nat.le_refl _) hi]
    split
    next => exact hread
    next hmiddle =>
      -- the middle character of an odd number of them stays where it is
      rw [← hread]
      congr 2
      omega
  · rw [List.length_reverse] at hx
    unfold Buffer.reverse
    rw [swaps_outside b' p (Nat.le_refl _) hx]
    exact h.outside x hx
  · have hwritten : ∀ x, p ≤ x → x < p + text.length → x ∈ b'.writes :=
      fun x hp hx => (h.writes x).mpr (Or.inr ⟨hp, hx⟩)
    unfold Buffer.reverse
    rw [mem_swaps_writes (Nat.le_refl _) hwritten, List.length_reverse]
    exact h.writes x

end Buffer

/-- How a loop takes a number apart, from the last digit on; `size` counts the digits that follow. -/
structure Radix where
  digit : BitVec 64 → Byte
  next : BitVec 64 → BitVec 64
  size : BitVec 64 → Nat
  size_last : ∀ n, next n = 0#64 → size n = 0
  size_next : ∀ n, next n ≠ 0#64 → size n = size (next n) + 1
  digit_ne_zero : ∀ n, digit n ≠ 0#8

namespace Radix

/-- "Convert each digit from right to left": the buffer and its new length. -/
def convert (r : Radix) (b : Buffer) (p length : Nat) (n : BitVec 64) : Buffer × Nat :=
  let b := b.store (p + length) (r.digit n)
  if _h : r.next n ≠ 0#64 then r.convert b p (length + 1) (r.next n) else (b, length + 1)
termination_by r.size n
decreasing_by
  rw [r.size_next n _h]
  exact Nat.lt_succ_self _

def digits (r : Radix) (n : BitVec 64) : CString :=
  if _h : r.next n ≠ 0#64 then r.digit n :: r.digits (r.next n) else [r.digit n]
termination_by r.size n
decreasing_by
  rw [r.size_next n _h]
  exact Nat.lt_succ_self _

variable (r : Radix)

theorem digits_last {n : BitVec 64} (h : r.next n = 0#64) : r.digits n = [r.digit n] := by
  rw [digits, dif_neg (not_not.mpr h)]

theorem digits_next {n : BitVec 64} (h : r.next n ≠ 0#64) :
    r.digits n = r.digit n :: r.digits (r.next n) := by
  rw [digits, dif_pos h]

theorem length_digits (n : BitVec 64) : (r.digits n).length = r.size n + 1 := by
  fun_induction digits r n with
  | case1 n h ih => rw [List.length_cons, ih, r.size_next n h]
  | case2 n h => rw [r.size_last n (not_not.mp h)]; rfl

theorem zero_notMem_digits (n : BitVec 64) : 0#8 ∉ r.digits n := by
  fun_induction digits r n with
  | case1 n h ih =>
    rw [List.mem_cons, not_or]
    exact ⟨(r.digit_ne_zero n).symm, ih⟩
  | case2 n h =>
    rw [List.mem_singleton]
    exact (r.digit_ne_zero n).symm

theorem convert_emits (b : Buffer) (p length : Nat) (n : BitVec 64) :
    b.Emits (r.convert b p length n).1 (p + length) (r.digits n) ∧
      (r.convert b p length n).2 = length + (r.digits n).length := by
  fun_induction convert r b p length n with
  | case1 b length n b' h ih =>
    obtain ⟨hemits, hlength⟩ := ih
    rw [r.digits_next h, hlength, List.length_cons]
    exact ⟨(Buffer.Emits.store b (p + length) (r.digit n)).append hemits, by omega⟩
  | case2 b length n b' h =>
    rw [r.digits_last (not_not.mp h)]
    exact ⟨Buffer.Emits.store b (p + length) (r.digit n), rfl⟩

end Radix

namespace Format

def zero : Byte := 48#8

def minus : Byte := 45#8

def hexChars : CString :=
  [48#8, 49#8, 50#8, 51#8, 52#8, 53#8, 54#8, 55#8, 56#8, 57#8, 97#8, 98#8, 99#8, 100#8, 101#8, 102#8]

theorem toInt_ten : (10#64).toInt = 10 := by decide

theorem natAbs_sdiv (n : BitVec 64) : (n.sdiv 10#64).toInt.natAbs = n.toInt.natAbs / 10 := by
  rw [BitVec.toInt_sdiv_of_ne_or_ne n 10#64 (Or.inr (by decide)), toInt_ten, Int.natAbs_tdiv]
  rfl

theorem digit_ne_zero (n : BitVec 64) : (n.srem 10#64).truncate 8 + zero ≠ 0#8 := by
  have hrem := BitVec.toInt_srem n 10#64
  rw [toInt_ten] at hrem
  have hlt := Int.tmod_lt_of_pos n.toInt (show (0 : Int) < 10 by decide)
  have hgt := Int.lt_tmod_of_pos n.toInt (show (0 : Int) < 10 by decide)
  rw [← hrem] at hlt hgt
  intro h
  have hnat := congrArg BitVec.toNat h
  rw [BitVec.toInt_eq_toNat_cond] at hlt hgt
  simp [zero] at hnat
  split at hlt
  next => omega
  next => omega

/-- `integer % 10` and `integer / 10` of a signed number. -/
def decimal : Radix where
  digit n := (n.srem 10#64).truncate 8 + zero
  next n := n.sdiv 10#64
  size n := Nat.log 10 n.toInt.natAbs
  size_last n h := by
    have hsdiv := natAbs_sdiv n
    rw [h] at hsdiv
    apply Nat.log_of_lt
    simp at hsdiv
    omega
  size_next n h := by
    have hpos : (n.sdiv 10#64).toInt.natAbs ≠ 0 :=
      fun hzero => h (BitVec.eq_of_toInt_eq (Int.natAbs_eq_zero.mp hzero))
    rw [natAbs_sdiv] at hpos ⊢
    exact Nat.log_of_one_lt_of_le (by decide) (by omega)
  digit_ne_zero := digit_ne_zero

theorem toNat_sixteen (n : BitVec 64) : (n / 16#64).toNat = n.toNat / 16 := BitVec.toNat_udiv

/-- `integer % 16` and `integer / 16` of an unsigned number. -/
def hexadecimal : Radix where
  digit n := hexChars.getD (n % 16#64).toNat 0#8
  next n := n / 16#64
  size n := Nat.log 16 n.toNat
  size_last n h := by
    have hdiv := toNat_sixteen n
    rw [h] at hdiv
    apply Nat.log_of_lt
    simp at hdiv
    omega
  size_next n h := by
    have hpos : (n / 16#64).toNat ≠ 0 := fun hzero => h (BitVec.eq_of_toNat_eq hzero)
    rw [toNat_sixteen] at hpos ⊢
    exact Nat.log_of_one_lt_of_le (by decide) (by omega)
  digit_ne_zero n := by
    have hdigits : ∀ i < 16, hexChars.getD i 0#8 ≠ 0#8 := by decide
    apply hdigits
    rw [BitVec.toNat_umod]
    exact Nat.mod_lt _ (by decide)

def intToStr (b : Buffer) (p : Nat) (integer : BitVec 64) : Buffer × Nat :=
  let negative := integer.slt 0#64
  let integer := if negative then -integer else integer
  let (b, length) := decimal.convert b p 0 integer
  let (b, length) := if negative then (b.store (p + length) minus, length + 1) else (b, length)
  (b.reverse p length, length)

def uintToHex (b : Buffer) (p : Nat) (integer : BitVec 64) : Buffer × Nat :=
  -- an unsigned number is never negative
  let integer := if integer < 0#64 then -integer else integer
  let (b, length) := hexadecimal.convert b p 0 integer
  (b.reverse p length, length)

/-- What `int_to_str` writes. -/
def intText (integer : BitVec 64) : CString :=
  if integer.slt 0#64 then minus :: (decimal.digits (-integer)).reverse
  else (decimal.digits integer).reverse

def hexText (integer : BitVec 64) : CString := (hexadecimal.digits integer).reverse

theorem intToStr_emits (b : Buffer) (p : Nat) (integer : BitVec 64) :
    b.Emits (intToStr b p integer).1 p (intText integer) ∧
      (intToStr b p integer).2 = (intText integer).length := by
  unfold intToStr intText
  cases integer.slt 0#64 with
  | false =>
    obtain ⟨hemits, hlength⟩ := decimal.convert_emits b p 0 integer
    simp only [Bool.false_eq_true, if_false, hlength, List.length_reverse, Nat.zero_add]
    exact ⟨hemits.reverse, trivial⟩
  | true =>
    obtain ⟨hemits, hlength⟩ := decimal.convert_emits b p 0 (-integer)
    have hsigned := (hemits.append (Buffer.Emits.store _ _ minus)).reverse
    simp only [if_true, hlength, List.length_cons, List.length_reverse, Nat.zero_add]
    rw [List.length_append, List.length_singleton, List.reverse_concat] at hsigned
    exact ⟨hsigned, trivial⟩

theorem uintToHex_emits (b : Buffer) (p : Nat) (integer : BitVec 64) :
    b.Emits (uintToHex b p integer).1 p (hexText integer) ∧
      (uintToHex b p integer).2 = (hexText integer).length := by
  obtain ⟨hemits, hlength⟩ := hexadecimal.convert_emits b p 0 integer
  unfold uintToHex hexText
  rw [if_neg BitVec.not_lt_zero]
  simp only [hlength, List.length_reverse, Nat.zero_add]
  exact ⟨hemits.reverse, trivial⟩

/-- The least number has the size of its opposite, which is itself. -/
theorem natAbs_neg (n : BitVec 64) : (-n).toInt.natAbs = n.toInt.natAbs := by
  rw [BitVec.toInt_neg_eq_ite]
  split
  next hmin => rw [hmin]
  next => exact Int.natAbs_neg _

theorem length_intText (integer : BitVec 64) : (intText integer).length =
    Nat.log 10 integer.toInt.natAbs + 1 + if integer.toInt < 0 then 1 else 0 := by
  have hsign : integer.slt 0#64 = decide (integer.toInt < 0) := BitVec.slt_eq_decide
  have hdigits : ∀ n : BitVec 64, (decimal.digits n).length = Nat.log 10 n.toInt.natAbs + 1 :=
    decimal.length_digits
  unfold intText
  rw [hsign]
  by_cases hneg : integer.toInt < 0
  · simp only [hneg, decide_true, if_true, List.length_cons, List.length_reverse, hdigits, natAbs_neg]
  · simp only [hneg, decide_false, Bool.false_eq_true, if_false, List.length_reverse, hdigits, Nat.add_zero]

theorem length_hexText (integer : BitVec 64) :
    (hexText integer).length = Nat.log 16 integer.toNat + 1 := by
  rw [hexText, List.length_reverse, hexadecimal.length_digits]
  rfl

theorem zero_notMem_intText (integer : BitVec 64) : 0#8 ∉ intText integer := by
  unfold intText
  split
  next =>
    rw [List.mem_cons, List.mem_reverse, not_or]
    exact ⟨by decide, decimal.zero_notMem_digits _⟩
  next =>
    rw [List.mem_reverse]
    exact decimal.zero_notMem_digits _

theorem zero_notMem_hexText (integer : BitVec 64) : 0#8 ∉ hexText integer := by
  rw [hexText, List.mem_reverse]
  exact hexadecimal.zero_notMem_digits _

end Format

end UmbraOS
