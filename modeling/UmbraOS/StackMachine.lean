import Mathlib.Logic.Function.Basic
import UmbraOS.ByteMemory

namespace UmbraOS

def storeWords (m : Memory) : Nat → List (BitVec 64) → Memory
  | _, [] => m
  | a, w :: ws => storeWords (m.store64 a w) (a + 8) ws

/-- The `n` words from `a` up. -/
def loadWords (m : Memory) : Nat → Nat → List (BitVec 64)
  | _, 0 => []
  | a, n + 1 => m.load64 a :: loadWords m (a + 8) n

section Words

variable {m m' : Memory} {a : Nat} {ws : List (BitVec 64)}

theorem store64_comm (m : Memory) {a b : Nat} (v w : BitVec 64) (h : a + 8 ≤ b ∨ b + 8 ≤ a) :
    (m.store64 a v).store64 b w = (m.store64 b w).store64 a v := by
  funext x
  by_cases ha : a ≤ x ∧ x < a + 8
  · rw [Memory.store64_outside _ w (by omega)]
    simp only [Memory.store64, if_pos ha]
  · rw [Memory.store64_outside _ v (by omega)]
    simp only [Memory.store64, if_neg ha]

theorem storeWords_outside (m : Memory) {x : Nat} (h : x < a ∨ a + 8 * ws.length ≤ x) :
    storeWords m a ws x = m x := by
  induction ws generalizing m a with
  | nil => rfl
  | cons w ws ih =>
    rw [List.length_cons] at h
    rw [storeWords, ih _ (by omega), Memory.store64_outside m w (by omega)]

theorem storeWords_append (m : Memory) (a : Nat) (ws vs : List (BitVec 64)) :
    storeWords m a (ws ++ vs) = storeWords (storeWords m a ws) (a + 8 * ws.length) vs := by
  induction ws generalizing m a with
  | nil => rfl
  | cons w ws ih =>
    rw [List.cons_append, storeWords, ih, storeWords, List.length_cons,
      show a + 8 + 8 * ws.length = a + 8 * (ws.length + 1) by omega]

theorem storeWords_store64 (m : Memory) {b : Nat} (w : BitVec 64)
    (h : b + 8 ≤ a ∨ a + 8 * ws.length ≤ b) :
    storeWords (m.store64 b w) a ws = (storeWords m a ws).store64 b w := by
  induction ws generalizing m a with
  | nil => rfl
  | cons v ws ih =>
    rw [List.length_cons] at h
    rw [storeWords, store64_comm m w v (by omega), ih _ (by omega), storeWords]

theorem loadWords_congr {n : Nat} (h : ∀ x, a ≤ x → x < a + 8 * n → m x = m' x) :
    loadWords m a n = loadWords m' a n := by
  induction n generalizing a with
  | zero => rfl
  | succ n ih =>
    have hword : m.load64 a = m'.load64 a :=
      Memory.load64_congr fun x hx hl => h x hx (by omega)
    rw [loadWords, loadWords, hword, ih fun x hx hl => h x (by omega) (by omega)]

/-- The same bytes at another address are the same words. -/
theorem loadWords_shift {b n : Nat} (h : ∀ x < 8 * n, m (a + x) = m' (b + x)) :
    loadWords m a n = loadWords m' b n := by
  induction n generalizing a b with
  | zero => rfl
  | succ n ih =>
    have hword : m.load64 a = m'.load64 b := by
      have hbyte : ∀ x, x < 8 → m (a + x) = m' (b + x) := fun x hx => h x (by omega)
      have hfirst : m a = m' b := hbyte 0 (by omega)
      simp only [Memory.load64, hfirst, hbyte 1 (by omega), hbyte 2 (by omega), hbyte 3 (by omega),
        hbyte 4 (by omega), hbyte 5 (by omega), hbyte 6 (by omega), hbyte 7 (by omega)]
    have hrest := ih (a := a + 8) (b := b + 8) fun x hx => by
      have hbyte := h (8 + x) (by omega)
      rwa [← Nat.add_assoc, ← Nat.add_assoc] at hbyte
    rw [loadWords, loadWords, hword, hrest]

theorem take_loadWords (m : Memory) (a : Nat) {k n : Nat} (h : k ≤ n) :
    (loadWords m a n).take k = loadWords m a k := by
  induction k generalizing a n with
  | zero => rfl
  | succ k ih =>
    cases n with
    | zero => omega
    | succ n => rw [loadWords, List.take_succ_cons, ih (a + 8) (by omega), loadWords]

theorem loadWords_store64 (m : Memory) (a : Nat) (v : BitVec 64) (k n : Nat) :
    loadWords (m.store64 (a + 8 * k) v) a n = (loadWords m a n).set k v := by
  induction n generalizing a k with
  | zero => rfl
  | succ n ih =>
    cases k with
    | zero =>
      have hrest : loadWords (m.store64 a v) (a + 8) n = loadWords m (a + 8) n :=
        loadWords_congr fun x hx _ => Memory.store64_outside m v (by omega)
      rw [Nat.mul_zero, Nat.add_zero, loadWords, loadWords, List.set_cons_zero, hrest,
        Memory.load64_store64]
    | succ k =>
      have hfirst : (m.store64 (a + 8 * (k + 1)) v).load64 a = m.load64 a :=
        Memory.load64_store64_disjoint m v (by omega)
      have hrest := ih (a + 8) k
      rw [show a + 8 + 8 * k = a + 8 * (k + 1) by omega] at hrest
      rw [loadWords, loadWords, List.set_cons_succ, hfirst, hrest]

/-- Words that are stored are read back. -/
theorem loadWords_storeWords (m : Memory) (a : Nat) (ws : List (BitVec 64)) :
    loadWords (storeWords m a ws) a ws.length = ws := by
  induction ws generalizing m a with
  | nil => rfl
  | cons w ws ih =>
    have hfirst : (storeWords (m.store64 a w) (a + 8) ws).load64 a = w := by
      rw [← Memory.load64_store64 m a w]
      apply Memory.load64_congr
      intro x _ hx
      rw [Memory.load64_store64, storeWords_outside _ (by omega)]
    rw [List.length_cons, loadWords, storeWords, hfirst, ih]

end Words

/-- Registers with a stack in memory that grows down. -/
structure StackMachine (R : Type) where
  regs : R → BitVec 64
  sp : BitVec 64
  memory : Memory

/-- The instructions of code that saves and restores registers. -/
inductive StackInstr (R : Type)
  | push (r : R)
  | pushImm (v : BitVec 64)
  | pop (r : R)
  | movFromSp (r : R)
  | movToSp (r : R)
  | addSp (v : BitVec 64)

namespace StackMachine

variable {R : Type}

def pushWord (s : StackMachine R) (v : BitVec 64) : StackMachine R :=
  { s with sp := s.sp - 8#64, memory := s.memory.store64 (s.sp - 8#64).toNat v }

def pushWords (s : StackMachine R) (ws : List (BitVec 64)) : StackMachine R := ws.foldl pushWord s

theorem pushWords_append (s : StackMachine R) (ws vs : List (BitVec 64)) :
    s.pushWords (ws ++ vs) = (s.pushWords ws).pushWords vs := List.foldl_append

@[simp] theorem pushWords_regs (s : StackMachine R) (ws : List (BitVec 64)) :
    (s.pushWords ws).regs = s.regs := by
  induction ws generalizing s with
  | nil => rfl
  | cons w ws ih => exact ih (s.pushWord w)

/-- Pushed words lie in memory with the last one lowest. The stack may start at the end of the address
space. -/
theorem pushWords_below (s : StackMachine R) {ws : List (BitVec 64)} {top : Nat} (htop : top ≤ 2 ^ 64)
    (hsp : s.sp = BitVec.ofNat 64 top) (h : 8 * ws.length ≤ top) :
    s.pushWords ws = ⟨s.regs, BitVec.ofNat 64 (top - 8 * ws.length),
      storeWords s.memory (top - 8 * ws.length) ws.reverse⟩ := by
  induction ws generalizing s top with
  | nil =>
    obtain ⟨regs, sp, memory⟩ := s
    simp only at hsp
    simp [pushWords, storeWords, hsp]
  | cons w ws ih =>
    rw [List.length_cons] at h
    have hnext : s.sp - 8#64 = BitVec.ofNat 64 (top - 8) := by
      rw [hsp]
      apply BitVec.eq_of_toNat_eq
      simp only [BitVec.toNat_sub, BitVec.toNat_ofNat]
      omega
    have hlow : (s.sp - 8#64).toNat = top - 8 := by
      rw [hnext, BitVec.toNat_ofNat]
      omega
    have hrest := ih (s.pushWord w) (by omega : top - 8 ≤ 2 ^ 64) hnext (by omega)
    rw [show top - 8 - 8 * ws.length = top - 8 * (ws.length + 1) by omega] at hrest
    simp only [pushWord, hlow] at hrest
    rw [show s.pushWords (w :: ws) = (s.pushWord w).pushWords ws from rfl, pushWord, hlow, hrest,
      List.length_cons, List.reverse_cons, storeWords_append,
      storeWords_store64 _ _ (by rw [List.length_reverse]; omega), List.length_reverse,
      show top - 8 * (ws.length + 1) + 8 * ws.length = top - 8 by omega, storeWords, storeWords]

theorem pushWords_eq (s : StackMachine R) {ws : List (BitVec 64)} (h : 8 * ws.length ≤ s.sp.toNat) :
    s.pushWords ws = ⟨s.regs, BitVec.ofNat 64 (s.sp.toNat - 8 * ws.length),
      storeWords s.memory (s.sp.toNat - 8 * ws.length) ws.reverse⟩ :=
  s.pushWords_below (Nat.le_of_lt s.sp.isLt) (BitVec.ofNat_toNat 64 s.sp).symm h

variable [DecidableEq R]

def pop (s : StackMachine R) (r : R) : StackMachine R :=
  { s with regs := Function.update s.regs r (s.memory.load64 s.sp.toNat), sp := s.sp + 8#64 }

def exec (s : StackMachine R) : StackInstr R → StackMachine R
  | .push r => s.pushWord (s.regs r)
  | .pushImm v => s.pushWord v
  | .pop r => s.pop r
  | .movFromSp r => { s with regs := Function.update s.regs r s.sp }
  | .movToSp r => { s with sp := s.regs r }
  | .addSp v => { s with sp := s.sp + v }

def execAll (s : StackMachine R) (code : List (StackInstr R)) : StackMachine R := code.foldl exec s

theorem execAll_cons (s : StackMachine R) (i : StackInstr R) (code : List (StackInstr R)) :
    s.execAll (i :: code) = (s.exec i).execAll code := rfl

theorem execAll_append (s : StackMachine R) (code code' : List (StackInstr R)) :
    s.execAll (code ++ code') = (s.execAll code).execAll code' := List.foldl_append

theorem execAll_pushes (s : StackMachine R) (rs : List R) :
    s.execAll (rs.map .push) = s.pushWords (rs.map s.regs) := by
  induction rs generalizing s with
  | nil => rfl
  | cons r rs ih => exact ih (s.pushWord (s.regs r))

/-- What a row of pops leaves: the registers hold the words from the stack pointer up. -/
structure Popped (s : StackMachine R) (rs : List R) (s' : StackMachine R) : Prop where
  words : rs.map s'.regs = loadWords s.memory s.sp.toNat rs.length
  others : ∀ r, r ∉ rs → s'.regs r = s.regs r
  sp : s'.sp = s.sp + BitVec.ofNat 64 (8 * rs.length)
  memory : s'.memory = s.memory

theorem execAll_pops (s : StackMachine R) {rs : List R} (hn : rs.Nodup)
    (h : s.sp.toNat + 8 * rs.length ≤ 2 ^ 64) : s.Popped rs (s.execAll (rs.map .pop)) := by
  induction rs generalizing s with
  | nil => exact ⟨rfl, fun _ _ => rfl, by simp [execAll], rfl⟩
  | cons r rs ih =>
    obtain ⟨hr, hn⟩ := List.nodup_cons.mp hn
    rw [List.length_cons] at h
    -- only the last pop can leave the stack pointer at the end of the address space
    have hread : loadWords s.memory (s.sp + 8#64).toNat rs.length =
        loadWords s.memory (s.sp.toNat + 8) rs.length := by
      cases rs with
      | nil => rfl
      | cons q rs =>
        rw [List.length_cons] at h
        rw [show (s.sp + 8#64).toNat = s.sp.toNat + 8 by bv_omega]
    have hrest : (s.pop r).Popped rs ((s.pop r).execAll (rs.map .pop)) := by
      cases rs with
      | nil => exact ⟨rfl, fun _ _ => rfl, by simp [execAll], rfl⟩
      | cons q rs =>
        rw [List.length_cons] at h
        apply ih _ hn
        rw [List.length_cons, pop, show (s.sp + 8#64).toNat = s.sp.toNat + 8 by bv_omega]
        omega
    rw [List.map_cons, execAll_cons, exec]
    refine ⟨?_, ?_, ?_, hrest.memory⟩
    · have hfirst : ((s.pop r).execAll (rs.map .pop)).regs r = s.memory.load64 s.sp.toNat := by
        rw [hrest.others r hr]
        exact Function.update_self _ _ _
      rw [List.map_cons, List.length_cons, loadWords, hfirst, hrest.words]
      exact congrArg (List.cons _) hread
    · intro q hq
      rw [List.mem_cons, not_or] at hq
      rw [hrest.others q hq.2]
      exact Function.update_of_ne hq.1 _ _
    · rw [hrest.sp, List.length_cons]
      change s.sp + 8#64 + _ = _
      apply BitVec.eq_of_toNat_eq
      simp only [BitVec.toNat_add, BitVec.toNat_ofNat]
      omega

end StackMachine

end UmbraOS
