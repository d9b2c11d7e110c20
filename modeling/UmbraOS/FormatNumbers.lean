import UmbraOS.Format
import UmbraOS.Numerals

namespace UmbraOS

namespace Buffer

/-- The `length` characters at `p`. -/
def text (b : Buffer) (p length : Nat) : CString := (List.range length).map fun i => b.bytes (p + i)

theorem Emits.text_eq {b b' : Buffer} {p : Nat} {text : CString} (h : Emits b b' p text) :
    b'.text p text.length = text := by
  apply List.ext_getElem
  · simp [Buffer.text]
  · intro i hi hi'
    simp only [Buffer.text, List.getElem_map, List.getElem_range]
    exact h.inside i _ (List.getElem?_eq_getElem hi')

end Buffer

/-- A loop that takes the last digit of `value n` at each turn leaves the numeral reversed; `P`
is what it keeps of the number. -/
theorem Radix.reverse_digits (r : Radix) (N : Numerals Byte) (value : BitVec 64 → Nat)
    (P : BitVec 64 → Prop) (hdigit : ∀ n, P n → r.digit n = N.char (value n % N.base))
    (hnext : ∀ n, P n → P (r.next n) ∧ value (r.next n) = value n / N.base)
    (hzero : ∀ n, P n → (value n = 0 ↔ n = 0#64)) {n : BitVec 64} (h : P n) :
    (r.digits n).reverse = N.numeral (value n) := by
  have hpos : 0 < N.base := Nat.lt_of_succ_lt N.one_lt_base
  fun_induction Radix.digits r n with
  | case1 n hne ih =>
    obtain ⟨hkeep, hdiv⟩ := hnext n h
    have hlarge : ¬value n < N.base := by
      intro hlt
      apply hne
      rw [← hzero _ hkeep, hdiv, Nat.div_eq_of_lt hlt]
    rw [List.reverse_cons, ih hkeep, hdiv, hdigit n h, N.numeral_append hlarge]
  | case2 n hlast =>
    obtain ⟨hkeep, hdiv⟩ := hnext n h
    have hsmall : value n < N.base := by
      rw [not_not, ← hzero _ hkeep, hdiv, Nat.div_eq_zero_iff] at hlast
      omega
    rw [List.reverse_singleton, hdigit n h, N.numeral_digit hsmall, Nat.mod_eq_of_lt hsmall]

namespace Format

def decimalDigits : Numerals Byte where
  base := 10
  char d := zero + BitVec.ofNat 8 d
  value c := if 48 ≤ c.toNat ∧ c.toNat < 58 then some (c.toNat - 48) else none
  one_lt_base := by decide
  value_char := by decide

def hexDigits : Numerals Byte where
  base := 16
  char d := hexChars.getD d 0#8
  value c :=
    if 48 ≤ c.toNat ∧ c.toNat < 58 then some (c.toNat - 48)
    else if 97 ≤ c.toNat ∧ c.toNat < 103 then some (c.toNat - 87)
    else none
  one_lt_base := by decide
  value_char := by decide

/-- An optional sign before a canonical numeral; zero has none. -/
def CanonicalInt (text : CString) : Prop :=
  if text.head? = some minus then decimalDigits.Canonical text.tail ∧ text.tail ≠ [zero]
  else decimalDigits.Canonical text

def parseInt (text : CString) : Option Int :=
  if text.head? = some minus then (decimalDigits.parse text.tail).map fun k : Nat => -(k : Int)
  else (decimalDigits.parse text).map fun k : Nat => (k : Int)

theorem toInt_srem_nonneg {n : BitVec 64} (h : 0 ≤ n.toInt) :
    (n.srem 10#64).toInt = (n.toInt.natAbs % 10 : Nat) := by
  rw [BitVec.toInt_srem, toInt_ten, Int.tmod_eq_emod_of_nonneg h]
  omega

theorem decimal_digit {n : BitVec 64} (h : 0 ≤ n.toInt) :
    decimal.digit n = decimalDigits.char (n.toInt.natAbs % 10) := by
  have hrem := toInt_srem_nonneg h
  have hnat : (n.srem 10#64).toNat = n.toInt.natAbs % 10 := by
    rw [BitVec.toInt_eq_toNat_cond] at hrem
    split at hrem
    next => omega
    next => omega
  have hbyte : (n.srem 10#64).truncate 8 = BitVec.ofNat 8 (n.toInt.natAbs % 10) := by
    apply BitVec.eq_of_toNat_eq
    rw [BitVec.toNat_setWidth, hnat, BitVec.toNat_ofNat]
  change (n.srem 10#64).truncate 8 + zero = zero + BitVec.ofNat 8 (n.toInt.natAbs % 10)
  rw [hbyte, BitVec.add_comm]

theorem sdiv_nonneg {n : BitVec 64} (h : 0 ≤ n.toInt) : 0 ≤ (n.sdiv 10#64).toInt := by
  rw [BitVec.toInt_sdiv_of_ne_or_ne n 10#64 (Or.inr (by decide)), toInt_ten]
  exact Int.tdiv_nonneg h (by decide)

theorem reverse_decimal {n : BitVec 64} (h : 0 ≤ n.toInt) :
    (decimal.digits n).reverse = decimalDigits.numeral n.toInt.natAbs := by
  apply decimal.reverse_digits decimalDigits (fun n => n.toInt.natAbs) (fun n => 0 ≤ n.toInt)
  · exact fun n hn => decimal_digit hn
  · exact fun n hn => ⟨sdiv_nonneg hn, natAbs_sdiv n⟩
  · intro n hn
    rw [Int.natAbs_eq_zero]
    exact ⟨fun hz => BitVec.eq_of_toInt_eq hz, fun hz => congrArg BitVec.toInt hz⟩
  · exact h

theorem reverse_hexadecimal (n : BitVec 64) :
    (hexadecimal.digits n).reverse = hexDigits.numeral n.toNat := by
  apply hexadecimal.reverse_digits hexDigits BitVec.toNat (fun _ => True)
  · intro n _
    change hexChars.getD (n % 16#64).toNat 0#8 = hexChars.getD (n.toNat % 16) 0#8
    rw [BitVec.toNat_umod]
    rfl
  · exact fun n _ => ⟨trivial, toNat_sixteen n⟩
  · intro n _
    exact ⟨fun hz => BitVec.eq_of_toNat_eq hz, fun hz => congrArg BitVec.toNat hz⟩
  · trivial

theorem minus_notMem_decimal (k : Nat) : minus ∉ decimalDigits.numeral k := by
  intro hmem
  obtain ⟨d, hd, heq⟩ := decimalDigits.mem_numeral hmem
  have hall : ∀ d < 10, minus ≠ decimalDigits.char d := by decide
  exact hall d hd heq

theorem head_decimal_ne_minus (k : Nat) : (decimalDigits.numeral k).head? ≠ some minus :=
  fun h => minus_notMem_decimal k (List.mem_of_head? h)

theorem intText_nonneg {n : BitVec 64} (h : 0 ≤ n.toInt) :
    intText n = decimalDigits.numeral n.toInt.natAbs := by
  have hsign : n.slt 0#64 = false := by
    rw [BitVec.slt_eq_decide, decide_eq_false_iff_not]
    simp only [BitVec.toInt_zero]
    omega
  unfold intText
  rw [hsign, if_neg (by decide), reverse_decimal h]

theorem intText_neg {n : BitVec 64} (h : n.toInt < 0) (hmin : n ≠ BitVec.intMin 64) :
    intText n = minus :: decimalDigits.numeral n.toInt.natAbs := by
  have hsign : n.slt 0#64 = true := by
    rw [BitVec.slt_eq_decide, decide_eq_true_iff]
    exact h
  have hneg : 0 ≤ (-n).toInt := by
    rw [BitVec.toInt_neg_of_ne_intMin hmin]
    omega
  unfold intText
  rw [hsign, if_pos rfl, reverse_decimal hneg, natAbs_neg]

theorem intText_canonical {n : BitVec 64} (hmin : n ≠ BitVec.intMin 64) : CanonicalInt (intText n) := by
  unfold CanonicalInt
  by_cases h : n.toInt < 0
  · rw [intText_neg h hmin, List.head?_cons, if_pos rfl, List.tail_cons]
    refine ⟨decimalDigits.numeral_canonical _, fun hzero => ?_⟩
    have hhead := decimalDigits.head_numeral (congrArg List.head? hzero)
    omega
  · rw [intText_nonneg (by omega), if_neg (head_decimal_ne_minus _)]
    exact decimalDigits.numeral_canonical _

theorem parseInt_intText {n : BitVec 64} (hmin : n ≠ BitVec.intMin 64) :
    parseInt (intText n) = some n.toInt := by
  unfold parseInt
  by_cases h : n.toInt < 0
  · rw [intText_neg h hmin, List.head?_cons, if_pos rfl, List.tail_cons, Numerals.parse_numeral,
      Option.map_some, Option.some.injEq]
    omega
  · rw [intText_nonneg (by omega), if_neg (head_decimal_ne_minus _), Numerals.parse_numeral,
      Option.map_some, Option.some.injEq]
    omega

/-- The least number stays negative, and so do the remainders its digits are made from. -/
theorem intText_min : ¬CanonicalInt (intText (BitVec.intMin 64)) := by
  intro h
  have htext : intText (BitVec.intMin 64) =
      minus :: (decimal.digits (BitVec.intMin 64)).reverse := by
    unfold intText
    rw [show (BitVec.intMin 64).slt 0#64 = true by decide, if_pos rfl,
      show -BitVec.intMin 64 = BitVec.intMin 64 by decide]
  have hlast : decimal.digit (BitVec.intMin 64) ∈ (decimal.digits (BitVec.intMin 64)).reverse := by
    rw [List.mem_reverse, decimal.digits_next (by decide)]
    exact List.mem_cons_self
  unfold CanonicalInt at h
  rw [htext, List.head?_cons, if_pos rfl, List.tail_cons] at h
  obtain ⟨d, hd, heq⟩ := h.1.digits _ hlast
  have hall : ∀ d < 10, decimal.digit (BitVec.intMin 64) ≠ decimalDigits.char d := by decide
  exact hall d hd heq

theorem length_intText_le (n : BitVec 64) : (intText n).length ≤ 20 := by
  have habs : n.toInt.natAbs < 10 ^ 19 := by
    have hlt := n.toInt_lt
    have hle := n.le_toInt
    omega
  have hlog : Nat.log 10 n.toInt.natAbs < 19 := Nat.log_lt_of_lt_pow' (by decide) habs
  rw [length_intText]
  split
  next => omega
  next => omega

theorem length_hexText_le (n : BitVec 64) : (hexText n).length ≤ 16 := by
  have hlog : Nat.log 16 n.toNat < 16 := Nat.log_lt_of_lt_pow' (by decide) n.isLt
  rw [length_hexText]
  omega

theorem text_intToStr (b : Buffer) (p : Nat) (n : BitVec 64) :
    (intToStr b p n).1.text p (intToStr b p n).2 = intText n := by
  obtain ⟨hemits, hlength⟩ := intToStr_emits b p n
  rw [hlength]
  exact hemits.text_eq

theorem text_uintToHex (b : Buffer) (p : Nat) (n : BitVec 64) :
    (uintToHex b p n).1.text p (uintToHex b p n).2 = hexText n := by
  obtain ⟨hemits, hlength⟩ := uintToHex_emits b p n
  rw [hlength]
  exact hemits.text_eq

/-- What `int_to_str` is to do: the `length` characters it leaves at `p` are a canonical numeral
of the number, these are all it wrote, and there are at most 20. -/
structure WritesInt (b b' : Buffer) (p length : Nat) (n : BitVec 64) : Prop where
  canonical : CanonicalInt (b'.text p length)
  parses : parseInt (b'.text p length) = some n.toInt
  written : ∀ x, x ∈ b'.writes ↔ x ∈ b.writes ∨ (p ≤ x ∧ x < p + length)
  length_le : length ≤ 20

structure WritesHex (b b' : Buffer) (p length : Nat) (n : BitVec 64) : Prop where
  canonical : hexDigits.Canonical (b'.text p length)
  parses : hexDigits.parse (b'.text p length) = some n.toNat
  written : ∀ x, x ∈ b'.writes ↔ x ∈ b.writes ∨ (p ≤ x ∧ x < p + length)
  length_le : length ≤ 16

theorem intToStr_writes_iff (b : Buffer) (p : Nat) (integer : BitVec 64) :
    WritesInt b (intToStr b p integer).1 p (intToStr b p integer).2 integer ↔
      integer ≠ BitVec.intMin 64 := by
  constructor
  · intro h hmin
    have hcanonical := h.canonical
    rw [text_intToStr, hmin] at hcanonical
    exact intText_min hcanonical
  · intro hmin
    obtain ⟨hemits, hlength⟩ := intToStr_emits b p integer
    refine ⟨?_, ?_, ?_, ?_⟩
    · rw [text_intToStr]
      exact intText_canonical hmin
    · rw [text_intToStr]
      exact parseInt_intText hmin
    · rw [hlength]
      exact hemits.writes
    · rw [hlength]
      exact length_intText_le integer

theorem intToStr_min_not_canonical :
    ¬∀ (b : Buffer) (p : Nat) (integer : BitVec 64),
      WritesInt b (intToStr b p integer).1 p (intToStr b p integer).2 integer := by
  intro h
  have hcanonical := (h ⟨fun _ => 0#8, []⟩ 0 (BitVec.intMin 64)).canonical
  rw [text_intToStr] at hcanonical
  exact intText_min hcanonical

theorem uintToHex_writes (b : Buffer) (p : Nat) (integer : BitVec 64) :
    WritesHex b (uintToHex b p integer).1 p (uintToHex b p integer).2 integer := by
  obtain ⟨hemits, hlength⟩ := uintToHex_emits b p integer
  have htext : hexText integer = hexDigits.numeral integer.toNat := reverse_hexadecimal integer
  refine ⟨?_, ?_, ?_, ?_⟩
  · rw [text_uintToHex, htext]
    exact hexDigits.numeral_canonical _
  · rw [text_uintToHex, htext]
    exact hexDigits.parse_numeral _
  · rw [hlength]
    exact hemits.writes
  · rw [hlength]
    exact length_hexText_le integer

end Format

end UmbraOS
