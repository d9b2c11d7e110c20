import Mathlib.Data.Nat.Basic

namespace UmbraOS

/-- What a client of a page allocator relies on. Pages are numbered and `size` bytes long, a
run is returned by its byte address, and 0 stands for a refusal. `Ok` is the allocator's own
invariant and `used` the pages it counts as taken. -/
structure PageSource (size : Nat) where
  State : Type
  alloc : Nat → State → Nat × State
  free : Nat → Nat → State → State
  Ok : State → Prop
  used : State → Nat → Prop
  /-- Pages from this one on are never handed out. -/
  bound : Nat
  alloc_ok : ∀ n s, Ok s → Ok (alloc n s).2
  alloc_page : ∀ n s, Ok s → (alloc n s).1 ≠ 0 →
    ∃ page, (alloc n s).1 = page * size ∧ page + n ≤ bound ∧
      (∀ i, page ≤ i → i < page + n → ¬used s i) ∧
      ∀ i, used (alloc n s).2 i ↔ used s i ∨ page ≤ i ∧ i < page + n
  alloc_refused : ∀ n s, Ok s → (alloc n s).1 = 0 → ∀ i, used (alloc n s).2 i ↔ used s i
  free_ok : ∀ page n s, Ok s → 0 < page → page + n ≤ bound → Ok (free (page * size) n s)
  free_used : ∀ page n s, Ok s → 0 < page → page + n ≤ bound →
    ∀ i, used (free (page * size) n s) i ↔ used s i ∧ ¬(page ≤ i ∧ i < page + n)

/-- The allocator serves `count` requests of one page, one after another. -/
def PageSource.Serves {size : Nat} (P : PageSource size) : Nat → P.State → Prop
  | 0, _ => True
  | count + 1, s => (P.alloc 1 s).1 ≠ 0 ∧ P.Serves count (P.alloc 1 s).2

/-- An allocator that refuses only when no run of the size asked for is free. -/
def PageSource.Complete {size : Nat} (P : PageSource size) : Prop :=
  ∀ n s, P.Ok s → 0 < n → (P.alloc n s).1 = 0 → ∀ page, page + n ≤ P.bound →
    ∃ i, page ≤ i ∧ i < page + n ∧ P.used s i

end UmbraOS
