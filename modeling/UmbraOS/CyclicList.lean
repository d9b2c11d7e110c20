import Mathlib.Data.List.Basic

namespace UmbraOS

/-- A list that is gone round with a cursor. The cursor of an empty list is 0. -/
structure CyclicList (α : Type) where
  entries : List α
  cursor : Nat
  inside : cursor < entries.length ∨ entries = [] ∧ cursor = 0

namespace CyclicList

variable {α : Type}

def empty : CyclicList α := ⟨[], 0, Or.inr ⟨rfl, rfl⟩⟩

def current (r : CyclicList α) : Option α := r.entries[r.cursor]?

/-- A new first entry; the cursor stays at its entry. -/
def add (r : CyclicList α) (x : α) : CyclicList α where
  entries := x :: r.entries
  cursor := if r.entries = [] then 0 else r.cursor + 1
  inside := by
    have h := r.inside
    rw [List.length_cons]
    split
    next => omega
    next hne =>
      have hlt := h.resolve_right fun he => hne he.1
      omega

def next (r : CyclicList α) : CyclicList α where
  entries := r.entries
  cursor := if r.cursor + 1 < r.entries.length then r.cursor + 1 else 0
  inside := by
    rcases r.inside with h | ⟨he, h⟩
    · split <;> omega
    · rw [he, if_neg (by simp)]
      exact Or.inr ⟨rfl, rfl⟩

/-- The entry at the cursor goes; the cursor is then at the entry behind it. -/
def remove (r : CyclicList α) : CyclicList α where
  entries := r.entries.eraseIdx r.cursor
  cursor := if r.cursor + 1 < r.entries.length then r.cursor else 0
  inside := by
    rcases r.inside with h | ⟨he, h⟩
    · have hl := List.length_eraseIdx_of_lt h
      split
      next => omega
      next =>
        rcases Nat.eq_zero_or_pos (r.entries.eraseIdx r.cursor).length with hz | hp
        · exact Or.inr ⟨List.eq_nil_of_length_eq_zero hz, rfl⟩
        · exact Or.inl hp
    · rw [he, if_neg (by simp)]
      exact Or.inr ⟨rfl, rfl⟩

@[simp] theorem empty_entries : (empty : CyclicList α).entries = [] := rfl

@[simp] theorem add_entries (r : CyclicList α) (x : α) : (r.add x).entries = x :: r.entries := rfl

theorem add_cursor (r : CyclicList α) (x : α) :
    (r.add x).cursor = if r.entries = [] then 0 else r.cursor + 1 := rfl

@[simp] theorem next_entries (r : CyclicList α) : r.next.entries = r.entries := rfl

@[simp] theorem remove_entries (r : CyclicList α) :
    r.remove.entries = r.entries.eraseIdx r.cursor := rfl

theorem remove_cursor (r : CyclicList α) :
    r.remove.cursor = if r.cursor + 1 < r.entries.length then r.cursor else 0 := rfl

theorem cursor_lt {r : CyclicList α} (h : r.entries ≠ []) : r.cursor < r.entries.length :=
  r.inside.resolve_right fun he => h he.1

theorem current_eq_none_iff {r : CyclicList α} : r.current = none ↔ r.entries = [] := by
  unfold current
  rw [List.getElem?_eq_none_iff]
  constructor
  · intro h
    by_contra hne
    have hlt := cursor_lt hne
    omega
  · intro h
    rw [h]
    exact Nat.zero_le _

theorem next_cursor {r : CyclicList α} (h : r.entries ≠ []) :
    r.next.cursor = (r.cursor + 1) % r.entries.length := by
  have hlt := cursor_lt h
  have hmove : r.next.cursor = if r.cursor + 1 < r.entries.length then r.cursor + 1 else 0 := rfl
  rw [hmove]
  split
  next hl => rw [Nat.mod_eq_of_lt hl]
  next hl => rw [show r.cursor + 1 = r.entries.length by omega, Nat.mod_self]

end CyclicList

end UmbraOS
