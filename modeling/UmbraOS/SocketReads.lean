import UmbraOS.Socket

namespace UmbraOS

namespace Socket

open Traced

variable {P : Nat → Prop} {data : Memory} {i : Nat}

@[simp] theorem byte_value : (byte data i).value = data i := rfl

@[simp] theorem byte_within : (byte data i).Within P ↔ P i := by
  simp [byte, Within]

@[simp] theorem word_within : (word data i).Within P ↔ P i ∧ P (i + 1) := by
  simp [word]

@[simp] theorem netWord_within : (netWord data i).Within P ↔ P i ∧ P (i + 1) := by
  simp [netWord]

@[simp] theorem dword_within :
    (dword data i).Within P ↔ (P i ∧ P (i + 1)) ∧ P (i + 2) ∧ P (i + 3) := by
  simp [dword]

theorem netWord_lt (data : Memory) (i : Nat) : (netWord data i).value.toNat < 65536 :=
  (netWord data i).value.isLt

theorem word_congr {data data' : Memory} (h : data i = data' i)
    (h' : data (i + 1) = data' (i + 1)) : (word data i).value = (word data' i).value := by
  simp only [word, value_bind, byte_value, value_pure, h, h']

theorem netWord_congr {data data' : Memory} (h : data i = data' i)
    (h' : data (i + 1) = data' (i + 1)) : (netWord data i).value = (netWord data' i).value := by
  simp only [netWord, value_bind, value_pure, word_congr h h']

theorem sumWords_within {size ptr : Nat} {checksum : BitVec 32}
    (h : ∀ k, k < size → P (ptr + k)) : (sumWords data size ptr checksum).Within P := by
  induction size, ptr, checksum using sumWords.induct with
  | case1 size ptr checksum ih =>
    have hw : (word data ptr).Within P := by
      rw [word_within]
      exact ⟨h 0 (by omega), h 1 (by omega)⟩
    rw [sumWords, within_bind]
    refine ⟨hw, ih _ fun k hk => ?_⟩
    have hk' := h (2 + k) (by omega)
    rwa [← Nat.add_assoc] at hk'
  | case2 size ptr checksum hsmall =>
    rw [sumWords]
    · rw [within_pure]
      trivial
    · exact hsmall

theorem getChecksum_within {ptr size : Nat} (h : ∀ k, k < size → P (ptr + k)) :
    (getChecksum data ptr size).Within P := by
  rw [getChecksum, within_bind, within_pure]
  exact ⟨sumWords_within h, trivial⟩

theorem clearChecksum_other {ipv4 : Nat} (h : i < ipv4 + 10 ∨ ipv4 + 12 ≤ i) :
    clearChecksum data ipv4 i = data i := Memory.fill_outside data 0#8 (by omega)

end Socket

end UmbraOS
