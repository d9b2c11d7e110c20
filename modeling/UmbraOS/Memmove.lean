import UmbraOS.ByteMemory

namespace UmbraOS

namespace Memory

variable {m : Memory} {dest src n i : BitVec 64}

theorem toNat_next (h : i < n) : (i + 1#64).toNat = i.toNat + 1 := by
  have hlt : i.toNat < n.toNat := h
  have hn := n.isLt
  apply BitVec.toNat_add_of_lt
  rw [BitVec.toNat_ofNat]
  omega

theorem toNat_prev (h : 0#64 < i) : (i - 1#64).toNat = i.toNat - 1 := by
  have hpos : 0 < i.toNat := h
  apply BitVec.toNat_sub_of_le
  rw [BitVec.le_def, BitVec.toNat_ofNat]
  omega

/-- `pdest[i] = psrc[i]` -/
def copyByte (m : Memory) (dest src i : BitVec 64) : Memory :=
  m.fill (dest + i).toNat 1 (m (src + i).toNat)

/-- The loop of `memmove` for a source above the destination, from its turn `i` on. -/
def moveUp (m : Memory) (dest src n i : BitVec 64) : Memory :=
  if _h : i < n then (m.copyByte dest src i).moveUp dest src n (i + 1#64) else m
termination_by n.toNat - i.toNat
decreasing_by
  have hlt : i.toNat < n.toNat := _h
  rw [toNat_next _h]
  omega

/-- The loop for a source below the destination, with `i` bytes left to copy. -/
def moveDown (m : Memory) (dest src i : BitVec 64) : Memory :=
  if _h : 0#64 < i then (m.copyByte dest src (i - 1#64)).moveDown dest src (i - 1#64) else m
termination_by i.toNat
decreasing_by
  have hpos : 0 < i.toNat := _h
  rw [toNat_prev _h]
  omega

def memmove (m : Memory) (dest src n : BitVec 64) : BitVec 64 × Memory :=
  if src > dest then (dest, m.moveUp dest src n 0)
  else if src < dest then (dest, m.moveDown dest src n)
  else (dest, m)

theorem copyByte_same (hdest : dest.toNat + i.toNat < 2 ^ 64) (hsrc : src.toNat + i.toNat < 2 ^ 64) :
    m.copyByte dest src i (dest.toNat + i.toNat) = m (src.toNat + i.toNat) := by
  unfold copyByte
  rw [BitVec.toNat_add_of_lt hdest, BitVec.toNat_add_of_lt hsrc]
  exact fill_inside m _ (Nat.le_refl _) (Nat.lt_succ_self _)

theorem copyByte_other (hdest : dest.toNat + i.toNat < 2 ^ 64) {x : Nat} (hx : x ≠ dest.toNat + i.toNat) :
    m.copyByte dest src i x = m x := by
  unfold copyByte
  rw [BitVec.toNat_add_of_lt hdest]
  apply fill_outside
  omega

/-- The bytes from `dest + i` on are written, and the bytes they are read from lie above every
byte written before. -/
theorem moveUp_apply (hdest : dest.toNat + n.toNat ≤ 2 ^ 64) (hsrc : src.toNat + n.toNat ≤ 2 ^ 64)
    (habove : dest < src) (x : Nat) :
    m.moveUp dest src n i x =
      if dest.toNat + i.toNat ≤ x ∧ x < dest.toNat + n.toNat then m (src.toNat + (x - dest.toNat))
      else m x := by
  have hlt : dest.toNat < src.toNat := habove
  fun_induction moveUp m dest src n i with
  | case1 m i h ih =>
    have hi : i.toNat < n.toNat := h
    rw [ih, toNat_next h]
    by_cases hfirst : x = dest.toNat + i.toNat
    · rw [if_neg (by omega), if_pos (by omega), hfirst, copyByte_same (by omega) (by omega),
        Nat.add_sub_cancel_left]
    · rw [copyByte_other (by omega) hfirst]
      by_cases hx : dest.toNat + i.toNat ≤ x ∧ x < dest.toNat + n.toNat
      · rw [if_pos (by omega), if_pos hx]
        apply copyByte_other
        · omega
        · omega
      · rw [if_neg (by omega), if_neg hx]
  | case2 m i h =>
    have hi : ¬i.toNat < n.toNat := h
    rw [if_neg (by omega)]

/-- The bytes below `dest + i` are written, and the bytes they are read from lie below every
byte written before. -/
theorem moveDown_apply (hdest : dest.toNat + i.toNat ≤ 2 ^ 64) (hsrc : src.toNat + i.toNat ≤ 2 ^ 64)
    (hbelow : src < dest) (x : Nat) :
    m.moveDown dest src i x =
      if dest.toNat ≤ x ∧ x < dest.toNat + i.toNat then m (src.toNat + (x - dest.toNat)) else m x := by
  have hlt : src.toNat < dest.toNat := hbelow
  fun_induction moveDown m dest src i with
  | case1 m i h ih =>
    have hi : 0 < i.toNat := h
    have hprev := toNat_prev h
    rw [ih (by omega) (by omega)]
    by_cases hlast : x = dest.toNat + (i - 1#64).toNat
    · rw [if_neg (by omega), if_pos (by omega), hlast, copyByte_same (by omega) (by omega),
        Nat.add_sub_cancel_left]
    · rw [copyByte_other (by omega) hlast]
      by_cases hx : dest.toNat ≤ x ∧ x < dest.toNat + i.toNat
      · rw [if_pos (by omega), if_pos hx]
        apply copyByte_other
        · omega
        · omega
      · rw [if_neg (by omega), if_neg hx]
  | case2 m i h =>
    have hi : ¬0 < i.toNat := h
    rw [if_neg (by omega)]

theorem memmove_apply (hdest : dest.toNat + n.toNat ≤ 2 ^ 64) (hsrc : src.toNat + n.toNat ≤ 2 ^ 64)
    (x : Nat) : (m.memmove dest src n).2 x =
      if dest.toNat ≤ x ∧ x < dest.toNat + n.toNat then m (src.toNat + (x - dest.toNat)) else m x := by
  unfold memmove
  split
  next habove => exact moveUp_apply hdest hsrc habove x
  next habove =>
    split
    next hbelow => exact moveDown_apply hdest hsrc hbelow x
    next hbelow =>
      -- neither is below the other: the ranges are the same and nothing moves
      have hgt : ¬dest.toNat < src.toNat := habove
      have hlt : ¬src.toNat < dest.toNat := hbelow
      split
      next hx => rw [show src.toNat + (x - dest.toNat) = x by omega]
      next => rfl

/-- The range at `dest` holds what the range at `src` held before, however the two overlap. -/
theorem memmove_moves (m : Memory) {dest src n : BitVec 64} (hdest : dest.toNat + n.toNat ≤ 2 ^ 64)
    (hsrc : src.toNat + n.toNat ≤ 2 ^ 64) :
    (∀ i < n.toNat, (m.memmove dest src n).2 (dest.toNat + i) = m (src.toNat + i)) ∧
      (∀ x, x < dest.toNat ∨ dest.toNat + n.toNat ≤ x → (m.memmove dest src n).2 x = m x) := by
  constructor
  · intro i hi
    rw [memmove_apply hdest hsrc, if_pos (by omega), Nat.add_sub_cancel_left]
  · intro x hx
    rw [memmove_apply hdest hsrc, if_neg (by omega)]

theorem memmove_moves_overlapping :
    (∀ i < 8, (memmove (fun x => BitVec.ofNat 8 x) 0x1004#64 0x1000#64 8#64).2 (0x1004 + i) =
        BitVec.ofNat 8 (0x1000 + i)) ∧
      (∀ x, x < 0x1004 ∨ 0x1004 + 8 ≤ x →
        (memmove (fun x => BitVec.ofNat 8 x) 0x1004#64 0x1000#64 8#64).2 x = BitVec.ofNat 8 x) :=
  memmove_moves (fun x => BitVec.ofNat 8 x) (n := 8#64) (by decide) (by decide)

end Memory

end UmbraOS
