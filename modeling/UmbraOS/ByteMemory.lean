import Mathlib.Algebra.Group.Nat.Defs

namespace UmbraOS

abbrev Byte := BitVec 8

abbrev Memory := Nat → Byte

namespace Memory

/-- The little-endian 64-bit word at `a`. -/
def load64 (m : Memory) (a : Nat) : BitVec 64 :=
  BitVec.ofNat 64 ((m a).toNat + (m (a + 1)).toNat * 2 ^ 8 + (m (a + 2)).toNat * 2 ^ 16 +
    (m (a + 3)).toNat * 2 ^ 24 + (m (a + 4)).toNat * 2 ^ 32 + (m (a + 5)).toNat * 2 ^ 40 +
    (m (a + 6)).toNat * 2 ^ 48 + (m (a + 7)).toNat * 2 ^ 56)

def store64 (m : Memory) (a : Nat) (v : BitVec 64) : Memory := fun x =>
  if a ≤ x ∧ x < a + 8 then BitVec.ofNat 8 (v.toNat / 2 ^ (8 * (x - a))) else m x

/-- `memset` of `n` bytes. -/
def fill (m : Memory) (a n : Nat) (b : Byte) : Memory := fun x =>
  if a ≤ x ∧ x < a + n then b else m x

/-- `memcpy` of the first `n` bytes of `source`. -/
def copy (m : Memory) (a n : Nat) (source : Nat → Byte) : Memory := fun x =>
  if a ≤ x ∧ x < a + n then source (x - a) else m x

theorem load64_congr {m m' : Memory} {a : Nat} (h : ∀ x, a ≤ x → x < a + 8 → m x = m' x) :
    m.load64 a = m'.load64 a := by
  simp only [load64, h a (by omega) (by omega), h (a + 1) (by omega) (by omega),
    h (a + 2) (by omega) (by omega), h (a + 3) (by omega) (by omega),
    h (a + 4) (by omega) (by omega), h (a + 5) (by omega) (by omega),
    h (a + 6) (by omega) (by omega), h (a + 7) (by omega) (by omega)]

theorem store64_outside (m : Memory) {a x : Nat} (v : BitVec 64) (h : x < a ∨ a + 8 ≤ x) :
    m.store64 a v x = m x := by
  rw [store64, if_neg (by omega)]

theorem store64_byte (m : Memory) (a i : Nat) (v : BitVec 64) (h : i < 8) :
    m.store64 a v (a + i) = BitVec.ofNat 8 (v.toNat / 2 ^ (8 * i)) := by
  rw [store64, if_pos (by omega), Nat.add_sub_cancel_left]

@[simp] theorem load64_store64 (m : Memory) (a : Nat) (v : BitVec 64) :
    (m.store64 a v).load64 a = v := by
  have h0 : m.store64 a v a = BitVec.ofNat 8 (v.toNat / 2 ^ 0) := store64_byte m a 0 v (by omega)
  apply BitVec.eq_of_toNat_eq
  rw [load64, h0, store64_byte _ _ 1 _ (by omega), store64_byte _ _ 2 _ (by omega),
    store64_byte _ _ 3 _ (by omega), store64_byte _ _ 4 _ (by omega),
    store64_byte _ _ 5 _ (by omega), store64_byte _ _ 6 _ (by omega),
    store64_byte _ _ 7 _ (by omega)]
  simp only [BitVec.toNat_ofNat]
  have hv := v.isLt
  omega

theorem load64_store64_disjoint (m : Memory) {a b : Nat} (v : BitVec 64)
    (h : b + 8 ≤ a ∨ a + 8 ≤ b) : (m.store64 a v).load64 b = m.load64 b :=
  load64_congr fun _ _ _ => store64_outside m v (by omega)

/-- Aligned words at different addresses do not overlap. -/
theorem load64_store64_aligned (m : Memory) {a b : Nat} (v : BitVec 64) (ha : 8 ∣ a)
    (hb : 8 ∣ b) (h : b ≠ a) : (m.store64 a v).load64 b = m.load64 b :=
  load64_store64_disjoint m v (by omega)

theorem fill_outside (m : Memory) {a n x : Nat} (b : Byte) (h : x < a ∨ a + n ≤ x) :
    m.fill a n b x = m x := by
  rw [fill, if_neg (by omega)]

theorem fill_inside (m : Memory) {a n x : Nat} (b : Byte) (h : a ≤ x) (hx : x < a + n) :
    m.fill a n b x = b := by
  rw [fill, if_pos ⟨h, hx⟩]

theorem load64_fill_zero (m : Memory) {a n b : Nat} (h : a ≤ b) (hb : b + 8 ≤ a + n) :
    (m.fill a n 0#8).load64 b = 0#64 := by
  have hz : (m.fill a n 0#8).load64 b = load64 (fun _ => 0#8) b :=
    load64_congr fun x hx hl => fill_inside m _ (by omega) (by omega)
  rw [hz]
  simp [load64]

theorem copy_outside (m : Memory) {a n x : Nat} (source : Nat → Byte) (h : x < a ∨ a + n ≤ x) :
    m.copy a n source x = m x := by
  rw [copy, if_neg (by omega)]

theorem copy_inside (m : Memory) {a n : Nat} (source : Nat → Byte) {i : Nat} (h : i < n) :
    m.copy a n source (a + i) = source i := by
  rw [copy, if_pos (by omega), Nat.add_sub_cancel_left]

/-- The little-endian number in the `n` bytes at `a`. -/
def loadLe (m : Memory) (a : Nat) : Nat → Nat
  | 0 => 0
  | n + 1 => (m a).toNat + 256 * loadLe m (a + 1) n

theorem loadLe_lt (m : Memory) (a n : Nat) : m.loadLe a n < 256 ^ n := by
  induction n generalizing a with
  | zero => exact Nat.one_pos
  | succ n ih =>
    have hrest := ih (a + 1)
    have hbyte := (m a).isLt
    rw [loadLe, Nat.pow_succ]
    omega

end Memory

end UmbraOS
