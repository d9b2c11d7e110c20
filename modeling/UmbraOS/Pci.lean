import Mathlib.Data.Nat.Basic
import UmbraOS.ByteMemory

namespace UmbraOS

namespace Pci

def configAddress : BitVec 16 := 0xcf8#16

def configData : BitVec 16 := 0xcfc#16

/-- The configuration mechanism: the address that was written last, and the dwords that devices
store. -/
structure Ports where
  address : BitVec 32
  config : BitVec 32 → BitVec 32

def Ports.outPort (p : Ports) (port : BitVec 16) (value : BitVec 32) : Ports :=
  if port = configAddress then { p with address := value }
  else if port = configData then
    { p with config := fun addr => if addr = p.address then value else p.config addr }
  else p

def Ports.inPort (p : Ports) (port : BitVec 16) : BitVec 32 :=
  if port = configAddress then p.address
  else if port = configData then p.config p.address
  else 0xffffffff#32

inductive Width
  | u8
  | u16
  | u32

abbrev Width.size : Width → Nat
  | .u8 => 1
  | .u16 => 2
  | .u32 => 4

abbrev Width.bits (w : Width) : Nat := 8 * w.size

def address (bus device func offset : Byte) : BitVec 32 :=
  (1#32 <<< 31) ||| (bus.zeroExtend 32 <<< 16) ||| (device.zeroExtend 32 <<< 11) |||
    (func.zeroExtend 32 <<< 8) ||| (offset &&& 0xfc#8).zeroExtend 32

/-- `Pci::read<T>`. -/
def read (w : Width) (p : Ports) (bus device func offset : Byte) : BitVec w.bits × Ports :=
  let p := p.outPort configAddress (address bus device func offset)
  let offset := (offset &&& 0b11#8) * 8#8
  ((p.inPort configData >>> offset.toNat).truncate w.bits, p)

/-- A shift of a `uint32_t`, which has no value for a count of 32 or more. -/
def shiftLeft (value : BitVec 32) (count : Byte) : Option (BitVec 32) :=
  if count.toNat < 32 then some (value <<< count.toNat) else none

/-- `Pci::write<T>`. -/
def write (w : Width) (p : Ports) (bus device func offset : Byte) (value : BitVec 32) :
    Option Ports := do
  let addr := address bus device func offset
  let (current, p) := read .u32 p bus device func offset
  let p := p.outPort configAddress addr
  let value ← match w with
    | .u8 => do
      let mask ← shiftLeft 0xff#32 offset
      let shifted ← shiftLeft (value &&& 0xff#32) offset
      pure ((current &&& ~~~mask) ||| shifted)
    | .u16 => do
      let offset := (offset &&& 0b11#8) * 8#8
      let mask ← shiftLeft 0xffff#32 offset
      let shifted ← shiftLeft (value &&& 0xffff#32) offset
      pure ((current &&& ~~~mask) ||| shifted)
    | .u32 => pure value
  pure (p.outPort configData value)

def byteOf {n : Nat} (value : BitVec n) (j : Nat) : Byte := (value >>> (8 * j)).truncate 8

/-- A byte of the configuration space of a function. -/
def configByte (p : Ports) (bus device func k : Byte) : Byte :=
  byteOf (p.config (address bus device func k)) (k.toNat % 4)

/-- Exactly the bytes of the value at the offset are changed, and a read gives the value back. -/
structure Stores (w : Width) (p p' : Ports) (bus device func offset : Byte) (value : BitVec w.bits) :
    Prop where
  bytes : ∀ bus' device' func' k : Byte, device'.toNat < 32 → func'.toNat < 8 →
    configByte p' bus' device' func' k =
      if (bus' = bus ∧ device' = device ∧ func' = func) ∧
        offset.toNat ≤ k.toNat ∧ k.toNat < offset.toNat + w.size
      then byteOf value (k.toNat - offset.toNat) else configByte p bus' device' func' k
  reads : (read w p' bus device func offset).1 = value

theorem low_toNat (offset : Byte) : (offset &&& 0b11#8).toNat = offset.toNat % 4 := by
  rw [BitVec.toNat_and]
  exact Nat.and_two_pow_sub_one_eq_mod offset.toNat 2

theorem shift_toNat (offset : Byte) : ((offset &&& 0b11#8) * 8#8).toNat = 8 * (offset.toNat % 4) := by
  have hlow := low_toNat offset
  rw [BitVec.toNat_mul, hlow, BitVec.toNat_ofNat]
  omega

theorem dword_toNat : ∀ offset : Byte, (offset &&& 0xfc#8).toNat = offset.toNat / 4 * 4 := by
  decide +kernel

/-- A field below the bits of another one. -/
theorem or_field {x field : Nat} (shift : Nat) (hx : 2 ^ shift ∣ x) (hf : field < 2 ^ shift) :
    x ||| field = x + field := by
  obtain ⟨k, rfl⟩ := hx
  exact (Nat.two_pow_add_eq_or_of_lt hf k).symm

/-- The address of the dword with a byte of the configuration space of a function. -/
theorem address_toNat {bus device func offset : Byte} (hd : device.toNat < 32) (hf : func.toNat < 8) :
    (address bus device func offset).toNat = 2 ^ 31 + bus.toNat * 2 ^ 16 + device.toNat * 2 ^ 11 +
      func.toNat * 2 ^ 8 + offset.toNat / 4 * 4 := by
  have hb := bus.isLt
  have ho := offset.isLt
  have hbus : (bus.zeroExtend 32 <<< 16).toNat = bus.toNat * 2 ^ 16 := by
    rw [BitVec.toNat_shiftLeft, BitVec.toNat_setWidth, Nat.shiftLeft_eq]
    omega
  have hdevice : (device.zeroExtend 32 <<< 11).toNat = device.toNat * 2 ^ 11 := by
    rw [BitVec.toNat_shiftLeft, BitVec.toNat_setWidth, Nat.shiftLeft_eq]
    omega
  have hfunc : (func.zeroExtend 32 <<< 8).toNat = func.toNat * 2 ^ 8 := by
    rw [BitVec.toNat_shiftLeft, BitVec.toNat_setWidth, Nat.shiftLeft_eq]
    omega
  have hoffset : ((offset &&& 0xfc#8).zeroExtend 32).toNat = offset.toNat / 4 * 4 := by
    rw [BitVec.toNat_setWidth, dword_toNat]
    omega
  have henable : (1#32 <<< 31).toNat = 2 ^ 31 := rfl
  have hjoin : 2 ^ 31 ||| bus.toNat * 2 ^ 16 = 2 ^ 31 + bus.toNat * 2 ^ 16 :=
    or_field 24 (by decide) (by omega)
  have hjoin' : 2 ^ 31 + bus.toNat * 2 ^ 16 ||| device.toNat * 2 ^ 11 =
      2 ^ 31 + bus.toNat * 2 ^ 16 + device.toNat * 2 ^ 11 := or_field 16 (by omega) (by omega)
  have hjoin'' : 2 ^ 31 + bus.toNat * 2 ^ 16 + device.toNat * 2 ^ 11 ||| func.toNat * 2 ^ 8 =
      2 ^ 31 + bus.toNat * 2 ^ 16 + device.toNat * 2 ^ 11 + func.toNat * 2 ^ 8 :=
    or_field 11 (by omega) (by omega)
  unfold address
  rw [BitVec.toNat_or, BitVec.toNat_or, BitVec.toNat_or, BitVec.toNat_or, henable, hbus, hdevice,
    hfunc, hoffset, hjoin, hjoin', hjoin'', or_field 8 (by omega) (by omega)]

theorem address_inj {bus device func offset bus' device' func' offset' : Byte}
    (hd : device.toNat < 32) (hf : func.toNat < 8) (hd' : device'.toNat < 32) (hf' : func'.toNat < 8) :
    address bus device func offset = address bus' device' func' offset' ↔
      (bus = bus' ∧ device = device' ∧ func = func') ∧ offset.toNat / 4 = offset'.toNat / 4 := by
  have ho := offset.isLt
  have ho' := offset'.isLt
  rw [← BitVec.toNat_inj, address_toNat hd hf, address_toNat hd' hf', ← BitVec.toNat_inj,
    ← BitVec.toNat_inj (x := device), ← BitVec.toNat_inj (x := func)]
  omega

theorem getLsbD_replaced {current value mask : BitVec 32} {width shift n : Nat}
    (hmask : ∀ i, mask.getLsbD i = decide (i < width)) (hn : n < 32) :
    ((current &&& ~~~(mask <<< shift)) ||| ((value &&& mask) <<< shift)).getLsbD n =
      if shift ≤ n ∧ n < shift + width then value.getLsbD (n - shift) else current.getLsbD n := by
  simp only [BitVec.getLsbD_or, BitVec.getLsbD_and, BitVec.getLsbD_not, BitVec.getLsbD_shiftLeft,
    hmask, hn, decide_true, Bool.true_and]
  by_cases hbelow : n < shift
  · rw [if_neg (by omega), decide_eq_true hbelow]
    simp
  · rw [decide_eq_false hbelow]
    by_cases hinside : n - shift < width
    · rw [if_pos (by omega), decide_eq_true hinside]
      simp
    · rw [if_neg (by omega), decide_eq_false hinside]
      simp

theorem getLsbD_byteOf {m : Nat} (value : BitVec m) (j : Nat) {i : Nat} (hi : i < 8) :
    (byteOf value j).getLsbD i = value.getLsbD (8 * j + i) := by
  unfold byteOf
  rw [BitVec.getLsbD_setWidth, BitVec.getLsbD_ushiftRight, decide_eq_true hi, Bool.true_and]

/-- The bits of a dword in which the bytes from `low` on are those of a value. -/
def Replaced (w : Width) (dword dword' : BitVec 32) (low : Nat) (value : BitVec w.bits) : Prop :=
  ∀ n, n < 32 → dword'.getLsbD n =
    if 8 * low ≤ n ∧ n < 8 * low + w.bits then value.getLsbD (n - 8 * low) else dword.getLsbD n

def stored (p : Ports) (addr dword : BitVec 32) : Ports :=
  ⟨addr, fun a => if a = addr then dword else p.config a⟩

section Store

variable {p : Ports} {w : Width} {bus device func offset : Byte} {dword : BitVec 32}
  {value : BitVec w.bits}

theorem read_eq (w : Width) (p : Ports) (bus device func offset : Byte) :
    read w p bus device func offset =
      ((p.config (address bus device func offset) >>> (8 * (offset.toNat % 4))).truncate w.bits,
        ⟨address bus device func offset, p.config⟩) := by
  unfold read
  simp only [shift_toNat]
  rfl

theorem read_stored : (read w (stored p (address bus device func offset) dword) bus device func offset).1 =
    (dword >>> (8 * (offset.toNat % 4))).truncate w.bits := by
  rw [read_eq]
  simp only [stored, if_true]

theorem configByte_stored (hd : device.toNat < 32) (hf : func.toNat < 8) {bus' device' func' : Byte} (k : Byte)
    (hd' : device'.toNat < 32) (hf' : func'.toNat < 8) :
    configByte (stored p (address bus device func offset) dword) bus' device' func' k =
      if (bus' = bus ∧ device' = device ∧ func' = func) ∧ k.toNat / 4 = offset.toNat / 4
      then byteOf dword (k.toNat % 4) else configByte p bus' device' func' k := by
  unfold configByte stored
  simp only [address_inj hd' hf' hd hf]
  split
  next => rfl
  next => rfl

theorem aligned_fits (haligned : offset.toNat % w.size = 0) : offset.toNat % 4 + w.size ≤ 4 := by
  cases w with
  | u8 =>
    simp only [Width.size]
    omega
  | u16 =>
    simp only [Width.size] at haligned ⊢
    omega
  | u32 =>
    simp only [Width.size] at haligned ⊢
    omega

theorem replaced_of_stores (hd : device.toNat < 32) (hf : func.toNat < 8) (hsize : offset.toNat % 4 + w.size ≤ 4)
    (h : Stores w p (stored p (address bus device func offset) dword) bus device func offset value) :
    Replaced w (p.config (address bus device func offset)) dword (offset.toNat % 4) value := by
  intro n hn
  have hoffset := offset.isLt
  obtain ⟨k, hk⟩ : ∃ k : Byte, k.toNat = offset.toNat / 4 * 4 + n / 8 :=
    ⟨BitVec.ofNat 8 (offset.toNat / 4 * 4 + n / 8), by rw [BitVec.toNat_ofNat]; omega⟩
  have hdword : k.toNat / 4 = offset.toNat / 4 := by omega
  have hlow : k.toNat % 4 = n / 8 := by omega
  have haddr : address bus device func k = address bus device func offset :=
    (address_inj hd hf hd hf).mpr ⟨⟨rfl, rfl, rfl⟩, hdword⟩
  have hbyte := h.bytes bus device func k hd hf
  rw [configByte_stored hd hf k hd hf, if_pos ⟨⟨rfl, rfl, rfl⟩, hdword⟩, configByte, haddr, hlow] at hbyte
  have hbit := congrArg (fun b => b.getLsbD (n % 8)) hbyte
  simp only [getLsbD_byteOf _ _ (Nat.mod_lt n (by decide : 0 < 8)), Nat.div_add_mod] at hbit
  rw [hbit]
  have hrange : offset.toNat ≤ k.toNat ∧ k.toNat < offset.toNat + w.size ↔
      8 * (offset.toNat % 4) ≤ n ∧ n < 8 * (offset.toNat % 4) + w.bits := by
    simp only [Width.bits]
    omega
  by_cases hin : 8 * (offset.toNat % 4) ≤ n ∧ n < 8 * (offset.toNat % 4) + w.bits
  · rw [if_pos hin, if_pos ⟨⟨trivial, trivial, trivial⟩, hrange.mpr hin⟩,
      getLsbD_byteOf _ _ (Nat.mod_lt n (by decide : 0 < 8))]
    congr 1
    omega
  · rw [if_neg hin, if_neg fun h => hin (hrange.mp h.2),
      getLsbD_byteOf _ _ (Nat.mod_lt n (by decide : 0 < 8)), Nat.div_add_mod]

theorem stores_of_replaced (hd : device.toNat < 32) (hf : func.toNat < 8) (hsize : offset.toNat % 4 + w.size ≤ 4)
    (h : Replaced w (p.config (address bus device func offset)) dword (offset.toNat % 4) value) :
    Stores w p (stored p (address bus device func offset) dword) bus device func offset value := by
  have hoffset := offset.isLt
  refine ⟨fun bus' device' func' k hd' hf' => ?_, ?_⟩
  · rw [configByte_stored hd hf k hd' hf']
    by_cases hsame : (bus' = bus ∧ device' = device ∧ func' = func) ∧
        k.toNat / 4 = offset.toNat / 4
    · obtain ⟨⟨rfl, rfl, rfl⟩, hdword⟩ := hsame
      have haddr : address bus' device' func' k = address bus' device' func' offset :=
        (address_inj hd hf hd hf).mpr ⟨⟨rfl, rfl, rfl⟩, hdword⟩
      rw [if_pos ⟨⟨rfl, rfl, rfl⟩, hdword⟩, configByte, haddr]
      apply BitVec.eq_of_getLsbD_eq
      intro i hi
      have hbit := h (8 * (k.toNat % 4) + i) (by omega)
      rw [getLsbD_byteOf _ _ hi, hbit]
      by_cases hin : offset.toNat ≤ k.toNat ∧ k.toNat < offset.toNat + w.size
      · rw [if_pos (by simp only [Width.bits]; omega), if_pos ⟨⟨rfl, rfl, rfl⟩, hin⟩,
          getLsbD_byteOf _ _ hi]
        congr 1
        omega
      · rw [if_neg (by simp only [Width.bits]; omega), if_neg fun h => hin h.2,
          getLsbD_byteOf _ _ hi]
    · rw [if_neg hsame, if_neg]
      rintro ⟨hfunc, hle, hlt⟩
      exact hsame ⟨hfunc, by omega⟩
  · rw [read_stored]
    apply BitVec.eq_of_getLsbD_eq
    intro n hn
    have hbit := h (8 * (offset.toNat % 4) + n) (by simp only [Width.bits] at hn; omega)
    rw [if_pos (by omega), Nat.add_sub_cancel_left] at hbit
    rw [BitVec.getLsbD_setWidth, BitVec.getLsbD_ushiftRight, hbit, decide_eq_true hn,
      Bool.true_and]

/-- A store to the dword is right when it replaces the bytes of the value in the dword. -/
theorem stores_iff (hd : device.toNat < 32) (hf : func.toNat < 8)
    (haligned : offset.toNat % w.size = 0) :
    Stores w p (stored p (address bus device func offset) dword) bus device func offset value ↔
      Replaced w (p.config (address bus device func offset)) dword (offset.toNat % 4) value :=
  ⟨replaced_of_stores hd hf (aligned_fits haligned), stores_of_replaced hd hf (aligned_fits haligned)⟩

end Store

/-- The field at a shift, replaced in what a read of the dword returns for an offset. -/
def merged (dword mask value : BitVec 32) (low shift : Nat) : BitVec 32 :=
  ((dword >>> (8 * low)) &&& ~~~(mask <<< shift)) ||| ((value &&& mask) <<< shift)

theorem write_u8 (p : Ports) (bus device func offset : Byte) (value : BitVec 32) :
    write .u8 p bus device func offset value =
      if offset.toNat < 32 then
        some (stored p (address bus device func offset)
          (merged (p.config (address bus device func offset)) 0xff#32 value (offset.toNat % 4)
            offset.toNat))
      else none := by
  unfold write
  simp only [read_eq]
  split
  next hlt =>
    simp only [shiftLeft, if_pos hlt, merged, BitVec.truncate_eq_setWidth]
    rfl
  next hge =>
    simp only [shiftLeft, if_neg hge]
    rfl

theorem write_u16 (p : Ports) (bus device func offset : Byte) (value : BitVec 32) :
    write .u16 p bus device func offset value =
      some (stored p (address bus device func offset)
        (merged (p.config (address bus device func offset)) 0xffff#32 value (offset.toNat % 4)
          (8 * (offset.toNat % 4)))) := by
  have hlt : 8 * (offset.toNat % 4) < 32 := by omega
  unfold write
  simp only [read_eq, shiftLeft, shift_toNat, if_pos hlt, merged, BitVec.truncate_eq_setWidth]
  rfl

theorem write_u32 (p : Ports) (bus device func offset : Byte) (value : BitVec 32) :
    write .u32 p bus device func offset value =
      some (stored p (address bus device func offset) value) := by
  unfold write
  simp only [read_eq]
  rfl

theorem mask_u8 (i : Nat) : (0xff#32).getLsbD i = decide (i < 8) := by
  rw [show (0xff#32) = (BitVec.allOnes 8).setWidth 32 by decide, BitVec.getLsbD_setWidth,
    BitVec.getLsbD_allOnes]
  by_cases hi : i < 8 <;> simp [hi]
  omega

theorem mask_u16 (i : Nat) : (0xffff#32).getLsbD i = decide (i < 16) := by
  rw [show (0xffff#32) = (BitVec.allOnes 16).setWidth 32 by decide, BitVec.getLsbD_setWidth,
    BitVec.getLsbD_allOnes]
  by_cases hi : i < 16 <;> simp [hi]
  omega

/-- The accesses that store every value: a byte at the start of the space, a word at the start of a
dword or in one with equal halves, and every dword. -/
def Width.Writes (dword : BitVec 32) (offset : Byte) : Width → Prop
  | .u8 => offset = 0#8
  | .u16 => offset.toNat % 4 = 0 ∨ dword.truncate 16 = (dword >>> 16).truncate 16
  | .u32 => True

theorem getLsbD_merged {dword mask : BitVec 32} {width low shift n m : Nat} {value : BitVec m}
    (hmask : ∀ i, mask.getLsbD i = decide (i < width)) (hn : n < 32) :
    (merged dword mask (value.zeroExtend 32) low shift).getLsbD n =
      if shift ≤ n ∧ n < shift + width then value.getLsbD (n - shift)
      else dword.getLsbD (8 * low + n) := by
  unfold merged
  rw [getLsbD_replaced hmask hn, BitVec.getLsbD_ushiftRight, BitVec.getLsbD_setWidth,
    decide_eq_true (by omega : n - shift < 32), Bool.true_and]

/-- The shift by the offset itself meets no byte but the first. -/
theorem u8_replaced_iff (dword : BitVec 32) {offset : Byte} (hlt : offset.toNat < 32) :
    (∀ value : Byte, Replaced .u8 dword (merged dword 0xff#32 (value.zeroExtend 32) (offset.toNat % 4)
      offset.toNat) (offset.toNat % 4) value) ↔ offset = 0#8 := by
  constructor
  · intro h
    by_contra hne
    have hpos : offset.toNat ≠ 0 := fun hzero => hne (BitVec.eq_of_toNat_eq hzero)
    -- a bit of the byte that the shifted field leaves out
    obtain ⟨j, hj, hout⟩ : ∃ j, (j = 0 ∨ j = 7) ∧ ¬(offset.toNat ≤ 8 * (offset.toNat % 4) + j ∧
        8 * (offset.toNat % 4) + j < offset.toNat + 8) := by
      by_cases hgt : 8 * (offset.toNat % 4) < offset.toNat
      · exact ⟨0, Or.inl rfl, by omega⟩
      · exact ⟨7, Or.inr rfl, by omega⟩
    have hkept : ∀ value : Byte, dword.getLsbD (8 * (offset.toNat % 4) +
        (8 * (offset.toNat % 4) + j)) = value.getLsbD j := by
      intro value
      have hbit := h value (8 * (offset.toNat % 4) + j) (by omega)
      rw [getLsbD_merged mask_u8 (by omega), if_neg hout] at hbit
      have hin : 8 * (offset.toNat % 4) ≤ 8 * (offset.toNat % 4) + j ∧
          8 * (offset.toNat % 4) + j < 8 * (offset.toNat % 4) + 8 := by omega
      have hvalue := hbit.trans (if_pos hin)
      rwa [Nat.add_sub_cancel_left] at hvalue
    have hclear := hkept 0#8
    have hset := hkept 0xff#8
    rw [hclear] at hset
    rcases hj with rfl | rfl
    · exact absurd hset (by decide)
    · exact absurd hset (by decide)
  · rintro rfl value n hn
    rw [getLsbD_merged mask_u8 hn]
    simp

theorem u16_replaced_iff (dword : BitVec 32) {offset : Byte} (haligned : offset.toNat % 2 = 0) :
    (∀ value : BitVec 16, Replaced .u16 dword (merged dword 0xffff#32 (value.zeroExtend 32)
      (offset.toNat % 4) (8 * (offset.toNat % 4))) (offset.toNat % 4) value) ↔
      Width.Writes dword offset .u16 := by
  have hbits : (∀ value : BitVec 16, Replaced .u16 dword (merged dword 0xffff#32
      (value.zeroExtend 32) (offset.toNat % 4) (8 * (offset.toNat % 4))) (offset.toNat % 4) value) ↔
      ∀ n, n < 32 → ¬(8 * (offset.toNat % 4) ≤ n ∧ n < 8 * (offset.toNat % 4) + 16) →
        dword.getLsbD (8 * (offset.toNat % 4) + n) = dword.getLsbD n := by
    constructor
    · intro h n hn hout
      have hbit := h 0#16 n hn
      rw [getLsbD_merged mask_u16 hn, if_neg hout] at hbit
      exact hbit.trans (if_neg hout)
    · intro h value n hn
      rw [getLsbD_merged mask_u16 hn]
      split
      next hin => exact (if_pos hin).symm
      next hout => exact (h n hn hout).trans (if_neg hout).symm
  rw [hbits, Width.Writes]
  rcases (by omega : offset.toNat % 4 = 0 ∨ offset.toNat % 4 = 2) with hzero | htwo
  · rw [hzero]
    refine iff_of_true (fun n hn hout => ?_) (Or.inl rfl)
    rw [Nat.mul_zero, Nat.zero_add]
  · rw [htwo, or_iff_right (by decide)]
    constructor
    · intro h
      apply BitVec.eq_of_getLsbD_eq
      intro i hi
      rw [BitVec.getLsbD_setWidth, BitVec.getLsbD_setWidth, BitVec.getLsbD_ushiftRight,
        ← h i (by omega) (by omega)]
    · intro h n hn hout
      have hbit := congrArg (fun half => half.getLsbD n) h
      simp only [BitVec.truncate_eq_setWidth, BitVec.getLsbD_setWidth, BitVec.getLsbD_ushiftRight,
        decide_eq_true (by omega : n < 16), Bool.true_and] at hbit
      exact hbit.symm

section Write

variable {p : Ports} {bus device func offset : Byte}

/-- A write that stores a dword is right for the values with which that dword is. -/
theorem write_stored_iff (w : Width) (hd : device.toNat < 32) (hf : func.toNat < 8)
    (haligned : offset.toNat % w.size = 0) {dword : BitVec w.bits → BitVec 32}
    (hwrite : ∀ value : BitVec w.bits, write w p bus device func offset (value.zeroExtend 32) =
      some (stored p (address bus device func offset) (dword value))) :
    (∀ value : BitVec w.bits, ∃ p', write w p bus device func offset (value.zeroExtend 32) = some p' ∧
      Stores w p p' bus device func offset value) ↔
      ∀ value, Replaced w (p.config (address bus device func offset)) (dword value)
        (offset.toNat % 4) value := by
  refine forall_congr' fun value => ?_
  rw [hwrite value, ← stores_iff hd hf haligned]
  constructor
  · rintro ⟨p', hp', hstores⟩
    obtain rfl := Option.some.inj hp'
    exact hstores
  · intro hstores
    exact ⟨_, rfl, hstores⟩

/-- `Pci::write` stores exactly the bytes of every value, which a read gives back, only at these
offsets. -/
theorem write_stores_iff (w : Width) (hd : device.toNat < 32) (hf : func.toNat < 8)
    (haligned : offset.toNat % w.size = 0) :
    (∀ value : BitVec w.bits, ∃ p', write w p bus device func offset (value.zeroExtend 32) = some p' ∧
      Stores w p p' bus device func offset value) ↔
      w.Writes (p.config (address bus device func offset)) offset := by
  cases w with
  | u8 =>
    by_cases hlt : offset.toNat < 32
    · rw [write_stored_iff .u8 hd hf haligned fun value => by rw [write_u8, if_pos hlt]]
      exact u8_replaced_iff _ hlt
    · refine iff_of_false (fun h => ?_) fun hzero => ?_
      · obtain ⟨p', hp', -⟩ := h 0#8
        rw [write_u8, if_neg hlt] at hp'
        cases hp'
      · rw [show offset = 0#8 from hzero] at hlt
        exact hlt (by decide)
  | u16 =>
    rw [write_stored_iff .u16 hd hf haligned fun value => by rw [write_u16]]
    exact u16_replaced_iff _ haligned
  | u32 =>
    rw [write_stored_iff .u32 hd hf haligned fun value => by rw [write_u32]]
    refine iff_of_true (fun value n hn => ?_) trivial
    have hlow : offset.toNat % 4 = 0 := haligned
    have hin : 8 * 0 ≤ n ∧ n < 8 * 0 + 32 := by omega
    rw [hlow, BitVec.getLsbD_setWidth, decide_eq_true hn, Bool.true_and]
    exact (if_pos hin).symm

/-- The command register of the first function, with its two halves apart. -/
def commandPorts : Ports := ⟨0#32, fun _ => 0x00100007#32⟩

theorem command_stores :
    (0#8).toNat < 32 ∧ (0#8).toNat < 8 ∧ (4#8).toNat % Width.size .u16 = 0 ∧
      ∀ value : BitVec 16, ∃ p', write .u16 commandPorts 0#8 0#8 0#8 4#8 (value.zeroExtend 32) = some p' ∧
        Stores .u16 commandPorts p' 0#8 0#8 0#8 4#8 value :=
  ⟨by decide, by decide, by decide,
    (write_stores_iff .u16 (by decide) (by decide) (by decide)).mpr (Or.inl rfl)⟩

/-- A byte written to the interrupt line is stored elsewhere. -/
theorem interruptLine_not_stored :
    ¬∀ (w : Width) (p : Ports) (bus device func offset : Byte) (value : BitVec w.bits),
      device.toNat < 32 → func.toNat < 8 → offset.toNat % w.size = 0 →
      ∃ p', write w p bus device func offset (value.zeroExtend 32) = some p' ∧
        Stores w p p' bus device func offset value := by
  intro h
  obtain ⟨p', hp', hstores⟩ := h .u8 commandPorts 0#8 0#8 0#8 5#8 0xff#8 (by decide) (by decide) rfl
  obtain rfl := Option.some.inj hp'
  exact absurd hstores.reads (by decide)

end Write

end Pci

end UmbraOS
