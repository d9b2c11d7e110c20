import UmbraOS.Initramfs

namespace UmbraOS

namespace CString

/-- The string and its terminator are in the memory at `a`. -/
def At (m : Memory) : Nat → CString → Prop
  | a, [] => m a = 0#8
  | a, c :: cs => m a = c ∧ c ≠ 0#8 ∧ At m (a + 1) cs

theorem At.read {m : Memory} {a fuel : Nat} {str : CString} (h : At m a str)
    (hf : str.length ≤ fuel) : atAddress m fuel a = .ok str := by
  induction str generalizing a fuel with
  | nil =>
    unfold atAddress
    exact if_pos h
  | cons c cs ih =>
    obtain ⟨hc, hne, hrest⟩ := h
    cases fuel with
    | zero => exact absurd hf (Nat.not_succ_le_zero _)
    | succ fuel =>
      have hstop : ¬m a = 0#8 := by
        rw [hc]
        exact hne
      unfold atAddress
      rw [if_neg hstop]
      simp only
      rw [ih hrest (Nat.le_of_succ_le_succ hf), Except.ok_bind, hc]
      rfl

theorem strncmp_of_eq {first second : Nat → Byte} {length : Nat}
    (h : ∀ i < length, first i = second i ∧ second i ≠ 0#8) : strncmp first second length = true := by
  induction length with
  | zero => rfl
  | succ length ih =>
    obtain ⟨heq, hne⟩ := h length (Nat.lt_succ_self length)
    have hbefore := ih fun i hi => h i (Nat.lt_succ_of_lt hi)
    simp [strncmp, hbefore, heq, hne]

end CString

namespace Initramfs

/-- A member of an archive, with the octal digits of its size. -/
structure Member where
  name : CString
  digits : CString
  typeFlag : Byte
  data : List Byte

/-- The value of a number in octal digits. -/
def octal (digits : CString) : Nat := digits.foldl (fun value c => value * 8 + (c.toNat - 48)) 0

def OctalDigits (digits : CString) : Prop := ∀ c ∈ digits, 48 ≤ c.toNat ∧ c.toNat ≤ 55

theorem octalFold_eq {digits : CString} (h : OctalDigits digits) (value : Nat) :
    digits.foldl (fun res c => res * 8#64 + (c.signExtend 64 - 48#64)) (BitVec.ofNat 64 value) =
      BitVec.ofNat 64 (digits.foldl (fun value c => value * 8 + (c.toNat - 48)) value) := by
  induction digits generalizing value with
  | nil => rfl
  | cons c cs ih =>
    obtain ⟨hlow, hhigh⟩ := h c List.mem_cons_self
    have hsign : (c.signExtend 64).toNat = c.toNat := by
      rw [BitVec.signExtend_eq_setWidth_of_msb_false
        (BitVec.msb_eq_false_iff_two_mul_lt.mpr (by omega)), BitVec.toNat_setWidth]
      omega
    have hdigit : BitVec.ofNat 64 value * 8#64 + (c.signExtend 64 - 48#64) =
        BitVec.ofNat 64 (value * 8 + (c.toNat - 48)) := by
      apply BitVec.eq_of_toNat_eq
      simp only [BitVec.toNat_add, BitVec.toNat_mul, BitVec.toNat_sub, BitVec.toNat_ofNat, hsign]
      omega
    rw [List.foldl_cons, List.foldl_cons, hdigit]
    exact ih (fun d hd => h d (List.mem_cons_of_mem c hd)) _

theorem octToDec_eq {digits : CString} (h : OctalDigits digits) :
    octToDec digits = BitVec.ofNat 64 (octal digits) := octalFold_eq h 0

theorem octalFold_lt {digits : CString} (h : OctalDigits digits) (value : Nat) :
    digits.foldl (fun value c => value * 8 + (c.toNat - 48)) value <
      (value + 1) * 8 ^ digits.length := by
  induction digits generalizing value with
  | nil => simp
  | cons c cs ih =>
    obtain ⟨hlow, hhigh⟩ := h c List.mem_cons_self
    have hrest := ih (fun d hd => h d (List.mem_cons_of_mem c hd)) (value * 8 + (c.toNat - 48))
    have hstep : value * 8 + (c.toNat - 48) + 1 ≤ (value + 1) * 8 := by omega
    rw [List.foldl_cons, List.length_cons]
    calc _ < (value * 8 + (c.toNat - 48) + 1) * 8 ^ cs.length := hrest
      _ ≤ (value + 1) * 8 * 8 ^ cs.length := Nat.mul_le_mul_right _ hstep
      _ = (value + 1) * 8 ^ (cs.length + 1) := by rw [Nat.pow_succ', Nat.mul_assoc]

/-- The header at `a` and the bytes behind it are those of a member. -/
structure Header (m : Memory) (a : Nat) (x : Member) : Prop where
  name : CString.At m a x.name
  nameLength : x.name.length < 100
  size : CString.At m (a + 124) x.digits
  sizeLength : x.digits.length < 12
  octal : OctalDigits x.digits
  value : Initramfs.octal x.digits = x.data.length
  typeFlag : Initramfs.typeFlag m a = x.typeFlag
  magic : ∀ i < 5, Initramfs.magic m a i = ustar i
  data : ∀ i < x.data.length, m (a + 512 + i) = x.data.getD i 0#8

/-- The address behind a member. -/
def Member.behind (x : Member) (a : Nat) : Nat := a + 512 + alignUp x.data.length 512

/-- The members one after another from `a` on, and a block of zeros behind them. -/
def Archive (m : Memory) : Nat → List Member → Prop
  | a, [] => ∀ i < 512, m (a + i) = 0#8
  | a, x :: members => Header m a x ∧ x.behind a < 2 ^ 64 ∧ Archive m (x.behind a) members

theorem Header.dataLength {m : Memory} {a : Nat} {x : Member} (h : Header m a x) :
    x.data.length < 2 ^ 33 := by
  rw [← h.value]
  have hlt := octalFold_lt h.octal 0
  have hpow : 8 ^ x.digits.length ≤ 8 ^ 11 :=
    Nat.pow_le_pow_right (by omega) (Nat.le_of_lt_succ h.sizeLength)
  unfold Initramfs.octal
  omega

theorem Header.isHeader {m : Memory} {a : Nat} {x : Member} (h : Header m a x) :
    isHeader m a = true := by
  apply CString.strncmp_of_eq
  intro i hi
  refine ⟨h.magic i hi, ?_⟩
  have hletters : ∀ i < 5, ustar i ≠ 0#8 := by decide
  exact hletters i hi

theorem Header.readSize {m : Memory} {a fuel : Nat} {x : Member} (h : Header m a x)
    (hf : 100 ≤ fuel) : Initramfs.size m fuel a = .ok (BitVec.ofNat 64 x.data.length) := by
  have hlength := h.sizeLength
  unfold Initramfs.size
  rw [h.size.read (by omega), Except.ok_bind, octToDec_eq h.octal, h.value]
  rfl

theorem Header.size_toNat {m : Memory} {a : Nat} {x : Member} (h : Header m a x) :
    (BitVec.ofNat 64 x.data.length).toNat = x.data.length := by
  have hlt := h.dataLength
  rw [BitVec.toNat_ofNat]
  omega

theorem Header.next {m : Memory} {a : Nat} {x : Member} (h : Header m a x)
    (hend : x.behind a < 2 ^ 64) :
    Initramfs.next a (BitVec.ofNat 64 x.data.length) = x.behind a := by
  unfold Initramfs.next
  rw [h.size_toNat]
  exact u64_of_lt hend

theorem Archive.end_isHeader {m : Memory} {a : Nat} (h : Archive m a []) : isHeader m a = false := by
  have hzero : magic m a 0 = 0#8 := h 257 (by omega)
  simp [isHeader, CString.strncmp, hzero]

/-- A turn of the loop for the first member of an archive. -/
theorem Archive.initLoop_cons {literal : Nat → Byte} {m : Memory} {answers : Nat → Option Memory}
    {fuel turns a : Nat} {x : Member} {members : List Member} (h : Archive m a (x :: members))
    (hf : 100 ≤ fuel) (s : Vfs) : initLoop literal m answers fuel (turns + 1) s a =
      (do let s ← addMember literal m fuel s a (BitVec.ofNat 64 x.data.length) (answers turns)
          initLoop literal m answers fuel turns s (x.behind a)) := by
  obtain ⟨hheader, hend, _⟩ := h
  rw [initLoop, if_pos hheader.isHeader, hheader.readSize hf, Except.ok_bind, hheader.next hend]

theorem Archive.initLoop_nil {literal : Nat → Byte} {m : Memory} {answers : Nat → Option Memory}
    {fuel turns a : Nat} (h : Archive m a []) (s : Vfs) :
    initLoop literal m answers fuel turns s a = .ok s := by
  have hstop : ¬isHeader m a = true := by
    rw [h.end_isHeader]
    exact Bool.false_ne_true
  cases turns with
  | zero => rw [initLoop, if_neg hstop]
  | succ turns => rw [initLoop, if_neg hstop]

/-- The buffer of a regular member, given that `new` returns one. -/
theorem Header.fileData {m : Memory} {a : Nat} {x : Member} (h : Header m a x) (junk : Memory) :
    ∃ bytes, Initramfs.fileData m a (BitVec.ofNat 64 x.data.length) (some junk) =
      .ok (.block x.data.length bytes) ∧ ∀ i < x.data.length, bytes i = x.data.getD i 0#8 := by
  refine ⟨junk.copy 0 x.data.length fun i => m (a + 512 + i), ?_, fun i hi => ?_⟩
  · unfold Initramfs.fileData
    rw [h.size_toNat]
    exact if_neg (Nat.lt_irrefl _)
  · have hcopied := Memory.copy_inside (a := 0) junk (fun i => m (a + 512 + i)) hi
    rw [Nat.zero_add] at hcopied
    exact hcopied.trans (h.data i hi)

end Initramfs

end UmbraOS
