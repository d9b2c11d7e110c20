import Mathlib.Algebra.BigOperators.Group.List.Basic
import Mathlib.Data.Nat.ModEq
import Mathlib.Tactic.Ring

namespace UmbraOS

/-! One's complement sums of words of which `m` is the largest. -/

namespace OnesComplement

/-- Addition with end-around carry. -/
def add (m a b : Nat) : Nat := if a + b > m then a + b - m else a + b

def sum (m : Nat) (words : List Nat) : Nat := words.foldl (add m) 0

/-- `v` is a one's complement sum of words that add up to `total`. -/
structure Carried (m total v : Nat) : Prop where
  le : v ≤ m
  mod : v % m = total % m
  zero : v = 0 ↔ total = 0

variable {m a b s t v w : Nat}

/-- The sum is determined by the total: of the two zeros only words that are all zero give 0. -/
theorem Carried.unique (hv : Carried m t v) (hw : Carried m t w) : v = w := by
  have hmod : v % m = w % m := hv.mod.trans hw.mod.symm
  have hzero : v = 0 ↔ w = 0 := hv.zero.trans hw.zero.symm
  have hvle := hv.le
  have hwle := hw.le
  rcases Nat.lt_or_ge v m with hlt | hge
  · rcases Nat.lt_or_ge w m with hlt' | hge'
    · rwa [Nat.mod_eq_of_lt hlt, Nat.mod_eq_of_lt hlt'] at hmod
    · have hw' : w = m := by omega
      rw [hw', Nat.mod_self, Nat.mod_eq_of_lt hlt] at hmod
      omega
  · have hv' : v = m := by omega
    rcases Nat.lt_or_ge w m with hlt' | hge'
    · rw [hv', Nat.mod_self, Nat.mod_eq_of_lt hlt'] at hmod
      omega
    · omega

/-- Two sums are equal when the totals agree modulo the largest word and both or none are zero. -/
theorem Carried.eq_iff (hv : Carried m s v) (hw : Carried m t w) :
    v = w ↔ s % m = t % m ∧ (s = 0 ↔ t = 0) := by
  constructor
  · rintro rfl
    exact ⟨hv.mod.symm.trans hw.mod, hv.zero.symm.trans hw.zero⟩
  · rintro ⟨hmod, hzero⟩
    exact hv.unique ⟨hw.le, hw.mod.trans hmod.symm, hw.zero.trans hzero.symm⟩

/-- Less than the largest word more makes a difference, unless it is nothing. -/
theorem Carried.eq_add_iff (hv : Carried m s v) (hw : Carried m (s + t) w) (ht : t < m) : v = w ↔ t = 0 := by
  rw [hv.eq_iff hw]
  constructor
  · rintro ⟨hmod, -⟩
    have hcancel : 0 ≡ t [MOD m] := Nat.ModEq.add_left_cancel' s hmod
    have hzero : 0 % m = t % m := hcancel
    rw [Nat.zero_mod, Nat.mod_eq_of_lt ht] at hzero
    exact hzero.symm
  · rintro rfl
    exact ⟨rfl, Iff.rfl⟩

theorem Carried.self (h : v ≤ m) : Carried m v v := ⟨h, rfl, Iff.rfl⟩

/-- Totals that agree modulo the largest word have the same sums. -/
theorem Carried.congr (h : Carried m s v) (hmod : s % m = t % m) (hzero : s = 0 ↔ t = 0) :
    Carried m t v :=
  ⟨h.le, h.mod.trans hmod, h.zero.trans hzero⟩

theorem Carried.add (hv : Carried m s v) (hw : Carried m t w) : Carried m (s + t) (add m v w) := by
  have hvle := hv.le
  have hwle := hw.le
  have hvzero := hv.zero
  have hwzero := hw.zero
  have hmod : (v + w) % m = (s + t) % m := by rw [Nat.add_mod, hv.mod, hw.mod, ← Nat.add_mod]
  unfold OnesComplement.add
  split
  next hover =>
    refine ⟨by omega, ?_, by omega⟩
    rw [← Nat.mod_eq_sub_mod (by omega)]
    exact hmod
  next hfits => exact ⟨by omega, hmod, by omega⟩

theorem foldl_carried {words : List Nat} (hwords : ∀ x ∈ words, x ≤ m) (hv : Carried m t v) :
    Carried m (t + words.sum) (words.foldl (add m) v) := by
  induction words generalizing t v with
  | nil => exact hv
  | cons x words ih =>
    have hx : Carried m x x := .self (hwords x List.mem_cons_self)
    rw [List.foldl_cons, List.sum_cons, ← Nat.add_assoc]
    exact ih (fun y hy => hwords y (List.mem_cons_of_mem x hy)) (hv.add hx)

theorem sum_carried {words : List Nat} (hwords : ∀ x ∈ words, x ≤ m) :
    Carried m words.sum (sum m words) := by
  have hsum := foldl_carried hwords (Carried.self (Nat.zero_le m))
  rwa [Nat.zero_add] at hsum

/-- A total folded once: its low word and what stands above it. -/
theorem Carried.split (h : Carried m (s % (m + 1) + s / (m + 1)) v) : Carried m s v := by
  have hs : s % (m + 1) + s / (m + 1) + m * (s / (m + 1)) = s := by
    have hdiv := Nat.mod_add_div s (m + 1)
    rw [Nat.add_mul, Nat.one_mul] at hdiv
    omega
  refine h.congr ?_ ?_
  · conv_rhs => rw [← hs, Nat.add_mul_mod_self_left]
  · constructor
    · intro hzero
      have hquot : s / (m + 1) = 0 := Nat.eq_zero_of_add_eq_zero_left hzero
      rw [← hs, hzero, hquot, Nat.mul_zero]
    · intro hzero
      rw [hzero, Nat.zero_mod, Nat.zero_div]

/-- A word and its complement make up the largest word. -/
theorem Carried.complement (h : Carried m t v) : Carried m (t + (m - v)) m := by
  have hle := h.le
  have hzero := h.zero
  refine ⟨Nat.le_refl m, ?_, by omega⟩
  rw [Nat.add_mod, ← h.mod, ← Nat.add_mod, Nat.add_sub_cancel' hle]

theorem Carried.mul (c : Nat) (h : Carried m t v) (hw : Carried m (c * v) w) :
    Carried m (c * t) w := by
  have hvzero := h.zero
  refine hw.congr ?_ ?_
  · rw [Nat.mul_mod, h.mod, ← Nat.mul_mod]
  · rw [Nat.mul_eq_zero, Nat.mul_eq_zero, hvzero]

end OnesComplement

end UmbraOS
