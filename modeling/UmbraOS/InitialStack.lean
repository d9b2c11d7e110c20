import Mathlib.Algebra.Group.Nat.Defs
import Mathlib.Data.List.Basic

namespace UmbraOS

/-- What a program finds on its stack when it starts: pointers to its arguments and to its environment,
and the auxiliary vector. -/
structure InitialStack where
  argv : List (BitVec 64)
  envp : List (BitVec 64)
  auxv : List (BitVec 64 × BitVec 64)
deriving DecidableEq

namespace InitialStack

def atNull : BitVec 64 := 0#64

/-- The words from the stack pointer up. -/
def words (s : InitialStack) : List (BitVec 64) :=
  BitVec.ofNat 64 s.argv.length :: s.argv ++ 0#64 :: s.envp ++
    0#64 :: (s.auxv.flatMap fun e => [e.1, e.2]) ++ [atNull, 0#64]

/-- The pointers up to a null pointer, and the words behind it. -/
def pointers : List (BitVec 64) → Option (List (BitVec 64) × List (BitVec 64))
  | [] => none
  | w :: ws => if w = 0#64 then some ([], ws) else (pointers ws).map fun r => (w :: r.1, r.2)

/-- The entries of the auxiliary vector up to its end. -/
def entries : List (BitVec 64) → Option (List (BitVec 64 × BitVec 64))
  | tag :: value :: ws => if tag = atNull then some [] else (entries ws).map fun es => (tag, value) :: es
  | _ => none

/-- How a program reads its stack. -/
def parse : List (BitVec 64) → Option InitialStack
  | [] => none
  | argc :: ws =>
    match ws.drop argc.toNat with
    | [] => none
    | last :: ws' =>
      if last ≠ 0#64 then none
      else do
        let (envp, ws') ← pointers ws'
        let auxv ← entries ws'
        return ⟨ws.take argc.toNat, envp, auxv⟩

/-- Environment pointers are not null, and no entry before the last ends the auxiliary vector. -/
structure WellFormed (s : InitialStack) : Prop where
  argc : s.argv.length < 2 ^ 64
  envp : ∀ p ∈ s.envp, p ≠ 0#64
  auxv : ∀ e ∈ s.auxv, e.1 ≠ atNull

theorem pointers_append {ps : List (BitVec 64)} (h : ∀ p ∈ ps, p ≠ 0#64) (rest : List (BitVec 64)) :
    pointers (ps ++ 0#64 :: rest) = some (ps, rest) := by
  induction ps with
  | nil => rfl
  | cons p ps ih =>
    have hrest := ih fun q hq => h q (List.mem_cons_of_mem p hq)
    rw [List.cons_append, pointers, if_neg (h p List.mem_cons_self), hrest]
    rfl

theorem entries_append {es : List (BitVec 64 × BitVec 64)} (h : ∀ e ∈ es, e.1 ≠ atNull)
    (rest : List (BitVec 64)) :
    entries ((es.flatMap fun e => [e.1, e.2]) ++ atNull :: 0#64 :: rest) = some es := by
  induction es with
  | nil => rfl
  | cons e es ih =>
    have hrest := ih fun f hf => h f (List.mem_cons_of_mem e hf)
    have hne := h e List.mem_cons_self
    rw [List.flatMap_cons, List.append_assoc, List.cons_append, List.cons_append, List.nil_append, entries,
      if_neg hne, hrest]
    rfl

/-- A program reads what was put there, whatever lies above it. -/
theorem parse_words {s : InitialStack} (h : s.WellFormed) (rest : List (BitVec 64)) :
    parse (s.words ++ rest) = some s := by
  have hargc : (BitVec.ofNat 64 s.argv.length).toNat = s.argv.length := by
    rw [BitVec.toNat_ofNat]
    exact Nat.mod_eq_of_lt h.argc
  have hwords : s.words ++ rest = BitVec.ofNat 64 s.argv.length :: (s.argv ++
      0#64 :: (s.envp ++ 0#64 :: ((s.auxv.flatMap fun e => [e.1, e.2]) ++ atNull :: 0#64 :: rest))) := by
    unfold words
    simp only [List.cons_append, List.append_assoc, List.nil_append]
  have henvp := pointers_append h.envp
    ((s.auxv.flatMap fun e => [e.1, e.2]) ++ atNull :: 0#64 :: rest)
  have hauxv := entries_append h.auxv rest
  rw [hwords, parse, hargc, List.drop_left, List.take_left]
  simp only [ne_eq, not_true_eq_false, if_false, henvp, Option.bind_eq_bind, Option.bind_some, hauxv]
  rfl

end InitialStack

end UmbraOS
