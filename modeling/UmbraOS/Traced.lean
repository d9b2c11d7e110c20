import Mathlib.Data.List.Basic

namespace UmbraOS

/-- A value with the offsets that were read to compute it. -/
structure Traced (α : Type) where
  value : α
  reads : List Nat

namespace Traced

variable {α β : Type}

instance : Monad Traced where
  pure a := ⟨a, []⟩
  bind x f := ⟨(f x.value).value, x.reads ++ (f x.value).reads⟩

@[simp] theorem value_pure (a : α) : (pure a : Traced α).value = a := by
  simp only [pure]

@[simp] theorem value_bind (x : Traced α) (f : α → Traced β) :
    (x >>= f).value = (f x.value).value := by
  simp only [bind]

@[simp] theorem value_ite (c : Prop) [Decidable c] (x y : Traced α) :
    (if c then x else y).value = if c then x.value else y.value := apply_ite _ _ _ _

/-- Every offset read satisfies `P`. -/
def Within (P : Nat → Prop) (x : Traced α) : Prop := ∀ i ∈ x.reads, P i

variable {P : Nat → Prop}

@[simp] theorem within_pure (a : α) : Within P (pure a) ↔ True :=
  iff_true_intro fun _ h => absurd h List.not_mem_nil

@[simp] theorem within_bind (x : Traced α) (f : α → Traced β) :
    Within P (x >>= f) ↔ Within P x ∧ Within P (f x.value) := List.forall_mem_append

end Traced

/-- Reads one after another. -/
def traceAll {α : Type} (read : Nat → Traced α) : List Nat → Traced (List α)
  | [] => pure []
  | i :: is => do
    let a ← read i
    let as ← traceAll read is
    pure (a :: as)

variable {α : Type} {P : Nat → Prop}

@[simp] theorem traceAll_value (read : Nat → Traced α) (is : List Nat) :
    (traceAll read is).value = is.map fun i => (read i).value := by
  induction is with
  | nil => rfl
  | cons i is ih =>
    rw [traceAll, Traced.value_bind, Traced.value_bind, Traced.value_pure, ih, List.map_cons]

@[simp] theorem traceAll_within (read : Nat → Traced α) (is : List Nat) :
    (traceAll read is).Within P ↔ ∀ i ∈ is, (read i).Within P := by
  induction is with
  | nil => simp [traceAll]
  | cons i is ih => simp [traceAll, ih]

end UmbraOS
