import Mathlib.Tactic.Ring
import Mathlib.Data.Nat.Basic

namespace UmbraOS

/-- Reduction of a `uint64_t` or `size_t` result. -/
def u64 (n : Nat) : Nat := n % 2 ^ 64

def pageSize : Nat := 4096

/-- `ALIGN_DOWN` for a power of two: clearing the low bits is rounding down. -/
def alignDown (addr align : Nat) : Nat := addr / align * align

def alignUp (addr align : Nat) : Nat := alignDown (u64 (addr + align - 1)) align

/-- The difference of two `size_t` values. -/
def sub64 (a b : Nat) : Nat := u64 (2 ^ 64 + a - b)

theorem u64_of_lt {n : Nat} (h : n < 2 ^ 64) : u64 n = n := Nat.mod_eq_of_lt h

theorem u64_lt (n : Nat) : u64 n < 2 ^ 64 := Nat.mod_lt _ (by decide)

theorem u64_le (n : Nat) : u64 n ≤ n := Nat.mod_le _ _

theorem sub64_of_le {a b : Nat} (h : b ≤ a) (ha : a < 2 ^ 64) : sub64 a b = a - b := by
  rw [sub64, u64]
  omega

/-- A difference below zero wraps around. -/
theorem sub64_of_lt {a b : Nat} (h : a < b) : sub64 a b = a + 2 ^ 64 - b := by
  rw [sub64, u64]
  omega

theorem alignUp_page {n : Nat} (h : n + 4095 < 2 ^ 64) :
    alignUp n pageSize = (n + 4095) / 4096 * 4096 := by
  simp only [alignUp, alignDown, pageSize]
  rw [u64_of_lt (by omega), show n + 4096 - 1 = n + 4095 by omega]

end UmbraOS
