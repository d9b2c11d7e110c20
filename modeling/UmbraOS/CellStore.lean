import Mathlib.Data.List.Perm.Subperm
import Mathlib.Logic.Function.Basic

namespace UmbraOS

/-- Why an execution stops without a result. `timeout` is the recursion budget of a loop
running out; it never stands for a fault of the program. -/
inductive Trap
  | nullDeref
  | useAfterFree
  | timeout
deriving DecidableEq, Repr

theorem Except.bind_eq_ok {ε α β : Type} {x : Except ε α} {f : α → Except ε β} {r : β} :
    (x >>= f) = .ok r ↔ ∃ a, x = .ok a ∧ f a = .ok r := by
  cases x with
  | error e =>
    constructor
    · intro h; cases h
    · rintro ⟨_, h, _⟩; cases h
  | ok a =>
    constructor
    · intro h; exact ⟨a, rfl, h⟩
    · rintro ⟨_, ha, h⟩; cases ha; exact h

theorem Except.map_eq_ok {ε α β : Type} {x : Except ε α} {f : α → β} {b : β} :
    x.map f = .ok b ↔ ∃ a, x = .ok a ∧ f a = b := by
  cases x with
  | ok a =>
    constructor
    · intro h
      exact ⟨a, rfl, Except.ok.inj h⟩
    · intro h
      obtain ⟨a', ha, rfl⟩ := h
      cases ha
      rfl
  | error e =>
    constructor
    · intro h
      cases h
    · intro h
      obtain ⟨a, ha, -⟩ := h
      cases ha

@[simp] theorem Except.ok_bind {ε α β : Type} (a : α) (f : α → Except ε β) :
    (Except.ok a >>= f) = f a := rfl

@[simp] theorem Except.error_bind {ε α β : Type} (e : ε) (f : α → Except ε β) :
    (Except.error e >>= f) = .error e := rfl

/-- Objects of one type, keyed by address. Addresses are handed out in order and never
twice, so a pointer to a deleted object stays recognisable. -/
structure CellStore (α : Type) where
  next : Nat
  cell : Nat → Option α
  fresh : ∀ a, next ≤ a → cell a = none

variable {α : Type}

namespace CellStore

def empty : CellStore α := ⟨0, fun _ => none, fun _ _ => rfl⟩

/-- The store after a new object is put at the address `s.next`. -/
def alloc (s : CellStore α) (v : α) : CellStore α where
  next := s.next + 1
  cell b := if b = s.next then some v else s.cell b
  fresh b hb := by
    rw [if_neg (by omega)]
    exact s.fresh b (by omega)

def adjust (s : CellStore α) (a : Nat) (f : α → α) : CellStore α where
  next := s.next
  cell b := if b = a then (s.cell b).map f else s.cell b
  fresh b hb := by
    have h := s.fresh b hb
    split <;> simp [h]

def erase (s : CellStore α) (a : Nat) : CellStore α where
  next := s.next
  cell b := if b = a then none else s.cell b
  fresh b hb := by
    split
    · rfl
    · exact s.fresh b hb

def read (s : CellStore α) : Option Nat → Except Trap α
  | none => .error .nullDeref
  | some a =>
    match s.cell a with
    | none => .error .useAfterFree
    | some v => .ok v

/-- Update of an object through a pointer; it must point to a live object. -/
def modify (s : CellStore α) (p : Option Nat) (f : α → α) : Except Trap (CellStore α) :=
  match p with
  | none => .error .nullDeref
  | some a =>
    match s.cell a with
    | none => .error .useAfterFree
    | some _ => .ok (s.adjust a f)

def free (s : CellStore α) (p : Option Nat) : Except Trap (CellStore α) :=
  match p with
  | none => .error .nullDeref
  | some a =>
    match s.cell a with
    | none => .error .useAfterFree
    | some _ => .ok (s.erase a)

@[simp] theorem empty_cell (a : Nat) : (empty : CellStore α).cell a = none := rfl

@[simp] theorem empty_next : (empty : CellStore α).next = 0 := rfl

@[simp] theorem alloc_next (s : CellStore α) (v : α) : (s.alloc v).next = s.next + 1 := rfl

@[simp] theorem adjust_next (s : CellStore α) (a : Nat) (f : α → α) :
    (s.adjust a f).next = s.next := rfl

@[simp] theorem erase_next (s : CellStore α) (a : Nat) : (s.erase a).next = s.next := rfl

theorem alloc_cell (s : CellStore α) (v : α) (b : Nat) :
    (s.alloc v).cell b = if b = s.next then some v else s.cell b := rfl

@[simp] theorem alloc_cell_self (s : CellStore α) (v : α) : (s.alloc v).cell s.next = some v := by
  simp [alloc_cell]

theorem lt_next {s : CellStore α} {a : Nat} {v : α} (h : s.cell a = some v) : a < s.next := by
  by_contra hn
  simp [s.fresh a (by omega)] at h

/-- There are no more different objects than were made. -/
theorem length_le_next {s : CellStore α} {as : List Nat} (h : as.Nodup)
    (hlive : ∀ a ∈ as, ∃ v, s.cell a = some v) : as.length ≤ s.next := by
  have hsub : as ⊆ List.range s.next := by
    intro a ha
    obtain ⟨v, hv⟩ := hlive a ha
    exact List.mem_range.mpr (lt_next hv)
  have hle := (List.subperm_of_subset h hsub).length_le
  rw [List.length_range] at hle
  exact hle

theorem alloc_cell_of_live {s : CellStore α} {a : Nat} {w : α} (v : α) (h : s.cell a = some w) :
    (s.alloc v).cell a = some w := by
  rw [alloc_cell, if_neg (Nat.ne_of_lt (lt_next h)), h]

theorem adjust_cell (s : CellStore α) (a b : Nat) (f : α → α) :
    (s.adjust a f).cell b = if b = a then (s.cell b).map f else s.cell b := rfl

theorem adjust_cell_self {s : CellStore α} {a : Nat} {v : α} (f : α → α) (h : s.cell a = some v) :
    (s.adjust a f).cell a = some (f v) := by
  simp [adjust_cell, h]

@[simp] theorem adjust_cell_ne (s : CellStore α) {a b : Nat} (f : α → α) (h : b ≠ a) :
    (s.adjust a f).cell b = s.cell b := by
  simp [adjust_cell, h]

/-- What an object is after an update, it was before, or it is the updated one. -/
theorem adjust_cell_cases {s : CellStore α} {a b : Nat} {f : α → α} {v : α} (h : (s.adjust a f).cell b = some v) :
    b ≠ a ∧ s.cell b = some v ∨ b = a ∧ ∃ old, s.cell a = some old ∧ v = f old := by
  rw [adjust_cell] at h
  by_cases hb : b = a
  · rw [if_pos hb, hb] at h
    obtain ⟨old, ho, rfl⟩ := Option.map_eq_some_iff.mp h
    exact Or.inr ⟨hb, old, ho, rfl⟩
  · rw [if_neg hb] at h
    exact Or.inl ⟨hb, h⟩

theorem adjust_forall {P : α → Prop} {s : CellStore α} {a : Nat} {f : α → α}
    (hs : ∀ b v, s.cell b = some v → P v) (hf : ∀ v, s.cell a = some v → P (f v)) :
    ∀ b v, (s.adjust a f).cell b = some v → P v := by
  intro b v hb
  rcases adjust_cell_cases hb with ⟨-, hold⟩ | ⟨-, old, hold, rfl⟩
  · exact hs b v hold
  · exact hf old hold

theorem erase_cell (s : CellStore α) (a b : Nat) :
    (s.erase a).cell b = if b = a then none else s.cell b := rfl

theorem erase_cell_live {s : CellStore α} {a b : Nat} {v : α} (h : (s.erase a).cell b = some v) :
    b ≠ a ∧ s.cell b = some v := by
  rw [erase_cell] at h
  split at h
  next => cases h
  next hne => exact ⟨hne, h⟩

@[simp] theorem erase_cell_ne (s : CellStore α) {a b : Nat} (h : b ≠ a) :
    (s.erase a).cell b = s.cell b := by
  simp [erase_cell, h]

@[simp] theorem read_none (s : CellStore α) : s.read none = .error .nullDeref := rfl

theorem read_live {s : CellStore α} {a : Nat} {v : α} (h : s.cell a = some v) :
    s.read (some a) = .ok v := by
  simp [read, h]

theorem read_dead {s : CellStore α} {a : Nat} (h : s.cell a = none) :
    s.read (some a) = .error .useAfterFree := by
  simp [read, h]

theorem read_eq_ok {s : CellStore α} {p : Option Nat} {v : α} :
    s.read p = .ok v ↔ ∃ a, p = some a ∧ s.cell a = some v := by
  cases p with
  | none => simp
  | some a => cases h : s.cell a <;> simp [read, h]

theorem read_some_ok {s : CellStore α} {a : Nat} {v : α} : s.read (some a) = .ok v ↔ s.cell a = some v := by
  rw [read_eq_ok]
  constructor
  · intro h
    obtain ⟨b, hb, hcell⟩ := h
    rw [Option.some.inj hb]
    exact hcell
  · intro h
    exact ⟨a, rfl, h⟩

theorem modify_live {s : CellStore α} {a : Nat} {v : α} (f : α → α) (h : s.cell a = some v) :
    s.modify (some a) f = .ok (s.adjust a f) := by
  simp [modify, h]

theorem modify_eq_ok {s s' : CellStore α} {p : Option Nat} {f : α → α} :
    s.modify p f = .ok s' ↔ ∃ a v, p = some a ∧ s.cell a = some v ∧ s' = s.adjust a f := by
  cases p with
  | none => simp [modify]
  | some a => cases h : s.cell a <;> simp [modify, h, eq_comm]

theorem modify_some_ok {s s' : CellStore α} {a : Nat} {f : α → α} :
    s.modify (some a) f = .ok s' ↔ ∃ v, s.cell a = some v ∧ s' = s.adjust a f := by
  rw [modify_eq_ok]
  constructor
  · intro h
    obtain ⟨b, v, hb, hcell, hset⟩ := h
    obtain rfl := Option.some.inj hb
    exact ⟨v, hcell, hset⟩
  · intro h
    obtain ⟨v, hcell, hset⟩ := h
    exact ⟨a, v, rfl, hcell, hset⟩

theorem free_live {s : CellStore α} {a : Nat} {v : α} (h : s.cell a = some v) :
    s.free (some a) = .ok (s.erase a) := by
  simp [free, h]

theorem free_dead {s : CellStore α} {a : Nat} (h : s.cell a = none) :
    s.free (some a) = .error .useAfterFree := by
  simp [free, h]

end CellStore

end UmbraOS
