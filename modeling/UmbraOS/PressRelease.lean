import Mathlib.Data.List.Infix

namespace UmbraOS

/-- Presses, given by `true`, and releases of keys. -/
abbrev KeyStream (κ : Type) := List (κ × Bool)

namespace KeyStream

variable {κ : Type} [DecidableEq κ]

/-- At no point a key has been released more often than pressed. -/
def Balanced (es : KeyStream κ) : Prop :=
  ∀ front : KeyStream κ, front <+: es → ∀ k, front.count (k, false) ≤ front.count (k, true)

/-- It is enough to look at the keys of the events. -/
theorem balanced_of_inits {es : KeyStream κ}
    (h : ∀ front ∈ es.inits, ∀ e ∈ es, front.count (e.1, false) ≤ front.count (e.1, true)) :
    Balanced es := by
  intro front hfront k
  by_cases hk : (k, false) ∈ front
  · exact h front ((List.mem_inits front es).mpr hfront) (k, false) (hfront.subset hk)
  · rw [List.count_eq_zero.mpr hk]
    exact Nat.zero_le _

theorem Balanced.filter {es : KeyStream κ} (h : Balanced es) (p : κ → Bool) :
    Balanced (es.filter fun e => p e.1) := by
  intro front hfront k
  obtain ⟨front', hfront', rfl⟩ := List.prefix_filter_iff.mp hfront
  by_cases hk : p k = true
  · have hcount : ∀ b, (front'.filter fun e => p e.1).count (k, b) = front'.count (k, b) :=
      fun b => List.count_filter (p := fun e : κ × Bool => p e.1) hk
    rw [hcount, hcount]
    exact h front' hfront' k
  · have hnone : (k, false) ∉ front'.filter fun e => p e.1 := by
      intro hmem
      exact hk (List.mem_filter.mp hmem).2
    rw [List.count_eq_zero.mpr hnone]
    exact Nat.zero_le _

/-- A key that is released has been pressed. -/
theorem Balanced.pressed {es : KeyStream κ} (h : Balanced es) {k : κ} (hk : (k, false) ∈ es) :
    (k, true) ∈ es := by
  have hcount := h es List.prefix_rfl k
  have hpos := List.count_pos_iff.mpr hk
  exact List.count_pos_iff.mp (Nat.lt_of_lt_of_le hpos hcount)

end KeyStream

end UmbraOS
