import Mathlib.Data.List.Basic

namespace UmbraOS

/-- The characters of the digits below `base`, and how a character is read. -/
structure Numerals (α : Type*) where
  base : Nat
  char : Nat → α
  value : α → Option Nat
  one_lt_base : 1 < base
  value_char : ∀ d < base, value (char d) = some d

namespace Numerals

variable {α : Type*} (N : Numerals α)

def parseFrom (k : Nat) : List α → Option Nat
  | [] => some k
  | c :: text =>
    match N.value c with
    | some d => parseFrom (N.base * k + d) text
    | none => none

def parse (text : List α) : Option Nat := N.parseFrom 0 text

/-- Digits only, at least one, and no zero before another digit. -/
structure Canonical (text : List α) : Prop where
  nonempty : text ≠ []
  digits : ∀ c ∈ text, ∃ d < N.base, c = N.char d
  noLeadingZero : text.head? = some (N.char 0) → text = [N.char 0]

def numeral (N : Numerals α) (k : Nat) : List α :=
  if _h : k < N.base then [N.char k] else N.numeral (k / N.base) ++ [N.char (k % N.base)]
termination_by k
decreasing_by
  have hb := N.one_lt_base
  exact Nat.div_lt_self (by omega) hb

theorem numeral_digit {k : Nat} (h : k < N.base) : N.numeral k = [N.char k] := by
  rw [numeral, dif_pos h]

theorem numeral_append {k : Nat} (h : ¬k < N.base) :
    N.numeral k = N.numeral (k / N.base) ++ [N.char (k % N.base)] := by
  rw [numeral, dif_neg h]

theorem char_injective {d d' : Nat} (h : d < N.base) (h' : d' < N.base) (heq : N.char d = N.char d') :
    d = d' := by
  have hvalue := N.value_char d h
  rw [heq, N.value_char d' h'] at hvalue
  exact (Option.some.inj hvalue).symm

theorem parseFrom_concat (k : Nat) (text : List α) (c : α) : N.parseFrom k (text ++ [c]) =
    (N.parseFrom k text).bind fun v => (N.value c).map fun d => N.base * v + d := by
  induction text generalizing k with
  | nil =>
    rw [List.nil_append, parseFrom, parseFrom]
    cases N.value c with
    | none => rfl
    | some d => rfl
  | cons x text ih =>
    rw [List.cons_append, parseFrom, parseFrom]
    cases N.value x with
    | none => rfl
    | some d => exact ih _

theorem parse_numeral (k : Nat) : N.parse (N.numeral k) = some k := by
  have hpos : 0 < N.base := Nat.lt_of_succ_lt N.one_lt_base
  fun_induction numeral N k with
  | case1 k h =>
    unfold parse
    rw [parseFrom, N.value_char k h]
    simp only [parseFrom, Nat.mul_zero, Nat.zero_add]
  | case2 k h ih =>
    unfold parse at ih ⊢
    rw [parseFrom_concat, ih, Option.bind_some, N.value_char _ (Nat.mod_lt k hpos), Option.map_some,
      Nat.div_add_mod]

theorem numeral_ne_nil (k : Nat) : N.numeral k ≠ [] := by
  unfold numeral
  split
  next => exact List.cons_ne_nil _ _
  next => exact List.append_ne_nil_of_right_ne_nil _ (List.cons_ne_nil _ _)

theorem mem_numeral {k : Nat} {c : α} (h : c ∈ N.numeral k) : ∃ d < N.base, c = N.char d := by
  have hpos : 0 < N.base := Nat.lt_of_succ_lt N.one_lt_base
  fun_induction numeral N k with
  | case1 k hk => exact ⟨k, hk, List.mem_singleton.mp h⟩
  | case2 k hk ih =>
    rcases List.mem_append.mp h with hleft | hlast
    · exact ih hleft
    · exact ⟨k % N.base, Nat.mod_lt k hpos, List.mem_singleton.mp hlast⟩

/-- The first digit is not zero, except in the numeral of zero. -/
theorem head_numeral {k : Nat} (h : (N.numeral k).head? = some (N.char 0)) : k = 0 := by
  have hpos : 0 < N.base := Nat.lt_of_succ_lt N.one_lt_base
  fun_induction numeral N k with
  | case1 k hk =>
    rw [List.head?_cons, Option.some.injEq] at h
    exact N.char_injective hk hpos h
  | case2 k hk ih =>
    rw [List.head?_append_of_ne_nil _ (N.numeral_ne_nil _)] at h
    have hquotient := ih h
    rw [Nat.div_eq_zero_iff] at hquotient
    omega

theorem numeral_canonical (k : Nat) : N.Canonical (N.numeral k) := by
  refine ⟨N.numeral_ne_nil k, fun c hc => N.mem_numeral hc, fun h => ?_⟩
  rw [N.head_numeral h]
  exact N.numeral_digit (Nat.lt_of_succ_lt N.one_lt_base)

end Numerals

end UmbraOS
