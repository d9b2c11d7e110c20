import UmbraOS.ByteMemory

namespace UmbraOS

/-- The linked list in memory that starts at pointer `a`: the link of the node at `x` is the
word at `x + o`, and a null pointer ends the list. -/
def WordList (mem : Memory) (o : Nat) : Nat → List Nat → Prop
  | a, [] => a = 0
  | a, x :: xs => a = x ∧ x ≠ 0 ∧ WordList mem o (mem.load64 (x + o)).toNat xs

namespace WordList

variable {mem mem' : Memory} {o a x : Nat} {xs ys : List Nat}

theorem nil : WordList mem o 0 [] := rfl

theorem cons (ha : a ≠ 0) (h : WordList mem o (mem.load64 (a + o)).toNat xs) :
    WordList mem o a (a :: xs) := ⟨rfl, ha, h⟩

theorem eq_nil (h : WordList mem o 0 xs) : xs = [] := by
  cases xs with
  | nil => rfl
  | cons x xs =>
    obtain ⟨hx, hne, _⟩ := h
    exact absurd hx.symm hne

theorem eq_cons (h : WordList mem o a xs) (ha : a ≠ 0) :
    ∃ ys, xs = a :: ys ∧ WordList mem o (mem.load64 (a + o)).toNat ys := by
  cases xs with
  | nil => exact absurd h ha
  | cons x ys =>
    obtain ⟨rfl, _, hy⟩ := h
    exact ⟨ys, rfl, hy⟩

/-- The list depends on nothing but its links. -/
theorem congr (h : WordList mem o a xs)
    (hl : ∀ x ∈ xs, mem'.load64 (x + o) = mem.load64 (x + o)) : WordList mem' o a xs := by
  induction xs generalizing a with
  | nil => exact h
  | cons x xs ih =>
    obtain ⟨hx, hne, hxs⟩ := h
    refine ⟨hx, hne, ?_⟩
    rw [hl x List.mem_cons_self]
    exact ih hxs fun y hy => hl y (List.mem_cons_of_mem _ hy)

theorem unique (hx : WordList mem o a xs) (hy : WordList mem o a ys) : xs = ys := by
  induction xs generalizing a ys with
  | nil =>
    have ha : a = 0 := hx
    subst ha
    exact hy.eq_nil.symm
  | cons x xs ih =>
    obtain ⟨rfl, hne, hxs⟩ := hx
    obtain ⟨zs, rfl, hzs⟩ := hy.eq_cons hne
    rw [ih hxs hzs]

theorem drop (h : WordList mem o a (xs ++ x :: ys)) : WordList mem o x (x :: ys) := by
  induction xs generalizing a with
  | nil =>
    obtain ⟨rfl, hne, hys⟩ := h
    exact ⟨rfl, hne, hys⟩
  | cons y xs ih =>
    obtain ⟨_, _, hxs⟩ := h
    exact ih hxs

/-- A list that reaches its null pointer visits no node twice. -/
theorem nodup (h : WordList mem o a xs) : xs.Nodup := by
  induction xs generalizing a with
  | nil => exact List.nodup_nil
  | cons x xs ih =>
    have hwhole := h
    obtain ⟨rfl, _, hxs⟩ := h
    refine List.nodup_cons.mpr ⟨?_, ih hxs⟩
    intro hm
    obtain ⟨pre, post, heq⟩ := List.append_of_mem hm
    have hagain : WordList mem o a (a :: post) := drop (heq ▸ hxs)
    have hlen := congrArg List.length (hwhole.unique hagain)
    rw [heq] at hlen
    simp only [List.length_cons, List.length_append] at hlen
    omega

/-- Writing the last link appends a list. -/
theorem append (h : WordList mem o a (xs ++ [x])) (hy : WordList mem' o (mem'.load64 (x + o)).toNat ys)
    (hl : ∀ y ∈ xs, mem'.load64 (y + o) = mem.load64 (y + o)) :
    WordList mem' o a (xs ++ x :: ys) := by
  induction xs generalizing a with
  | nil =>
    obtain ⟨hx, hne, _⟩ := h
    exact ⟨hx, hne, hy⟩
  | cons z xs ih =>
    obtain ⟨hz, hne, hxs⟩ := h
    refine ⟨hz, hne, ?_⟩
    rw [hl z List.mem_cons_self]
    exact ih hxs fun w hw => hl w (List.mem_cons_of_mem _ hw)

/-- Nodes that are linked one after another. -/
theorem of_links {node : Nat → Nat} {n : Nat} (hne : ∀ i, i < n → node i ≠ 0)
    (hl : ∀ i, i < n → (mem.load64 (node i + o)).toNat = if i + 1 < n then node (i + 1) else 0) :
    WordList mem o (if 0 < n then node 0 else 0) ((List.range n).map node) := by
  have hrest : ∀ k i, i + k = n →
      WordList mem o (if i < n then node i else 0) ((List.range' i k).map node) := by
    intro k
    induction k with
    | zero =>
      intro i hi
      rw [if_neg (by omega)]
      exact nil
    | succ k ih =>
      intro i hi
      have htail := ih (i + 1) (by omega)
      rw [← hl i (by omega)] at htail
      rw [if_pos (by omega)]
      exact cons (hne i (by omega)) htail
  have hall := hrest n 0 (Nat.zero_add n)
  rwa [← List.range_eq_range'] at hall

/-- The link of the last node is null. -/
theorem last (h : WordList mem o a (xs ++ [x])) : (mem.load64 (x + o)).toNat = 0 := by
  obtain ⟨_, _, hn⟩ := h.drop
  exact hn

end WordList

end UmbraOS
