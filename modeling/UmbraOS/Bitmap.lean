import UmbraOS.ByteMemory

namespace UmbraOS

/-- One bit a page: `data` is read through a pointer, `size` is its length in bytes. -/
structure Bitmap where
  data : Nat → Byte
  size : Nat

namespace Bitmap

def get (b : Bitmap) (pageIdx : Nat) : Bool :=
  ((b.data (pageIdx / 8) >>> (pageIdx % 8)) &&& 1#8) != 0#8

def set (b : Bitmap) (pageIdx : Nat) (value : Bool) : Bitmap where
  data i :=
    if i = pageIdx / 8 then
      if value then b.data i ||| (1#8 <<< (pageIdx % 8))
      else b.data i &&& ~~~(1#8 <<< (pageIdx % 8))
    else b.data i
  size := b.size

/-- The loop that sets `count` bits, one after another, from `first`. -/
def setRun (b : Bitmap) (first : Nat) (value : Bool) : Nat → Bitmap
  | 0 => b
  | count + 1 => (b.set first value).setRun (first + 1) value count

theorem get_eq_getLsbD (b : Bitmap) (i : Nat) : b.get i = (b.data (i / 8)).getLsbD (i % 8) := by
  have hb : ∀ (x : Byte) (k : Fin 8), ((x >>> k.val) &&& 1#8 != 0#8) = x.getLsbD k.val := by
    decide
  exact hb (b.data (i / 8)) ⟨i % 8, Nat.mod_lt _ (by decide)⟩

@[simp] theorem set_size (b : Bitmap) (i : Nat) (value : Bool) : (b.set i value).size = b.size := rfl

theorem get_set (b : Bitmap) (i j : Nat) (value : Bool) :
    (b.set i value).get j = if j = i then value else b.get j := by
  rw [get_eq_getLsbD, get_eq_getLsbD]
  by_cases hbyte : j / 8 = i / 8
  · have hbit : j = i ↔ j % 8 = i % 8 := by omega
    have hj : j % 8 < 8 := Nat.mod_lt _ (by decide)
    simp only [set, hbyte, if_true, hbit]
    cases value <;>
      simp only [Bool.false_eq_true, if_true, if_false, BitVec.getLsbD_or, BitVec.getLsbD_and,
        BitVec.getLsbD_not, BitVec.getLsbD_shiftLeft, BitVec.getLsbD_one, hj, decide_true,
        Bool.true_and] <;>
      by_cases he : j % 8 = i % 8 <;> simp [he] <;> omega
  · rw [if_neg (by rintro rfl; exact hbyte rfl)]
    simp [set, hbyte]

@[simp] theorem setRun_size (b : Bitmap) (first count : Nat) (value : Bool) :
    (b.setRun first value count).size = b.size := by
  induction count generalizing b first with
  | zero => rfl
  | succ count ih => simp [setRun, ih]

theorem get_setRun (b : Bitmap) (first count i : Nat) (value : Bool) :
    (b.setRun first value count).get i =
      if first ≤ i ∧ i < first + count then value else b.get i := by
  induction count generalizing b first with
  | zero => rw [setRun, if_neg (by omega)]
  | succ count ih =>
    rw [setRun, ih, get_set]
    by_cases hi : i = first
    · subst hi
      simp
    · by_cases hr : first + 1 ≤ i ∧ i < first + 1 + count
      · rw [if_pos hr, if_pos (by omega)]
      · rw [if_neg hr, if_neg hi, if_neg (by omega)]

end Bitmap

end UmbraOS
