import UmbraOS.CellStore

namespace UmbraOS

variable {σ : Type}

/-- The turns of a loop with a counter; a turn that does not go on ends the loop. -/
def loopTurns (turn : Nat → σ → Except Trap (Bool × σ)) : Nat → Nat → σ → Except Trap (Bool × σ)
  | 0, _, s => .ok (true, s)
  | turns + 1, i, s => do
    let (go, s) ← turn i s
    if go then loopTurns turn turns (i + 1) s else return (false, s)

/-- The loop comes to a turn in a state. -/
inductive Before (turn : Nat → σ → Except Trap (Bool × σ)) (i : Nat) (s : σ) : Nat → σ → Prop
  | start : Before turn i s i s
  | next {k : Nat} {t u : σ} (earlier : Before turn i s k t) (goes : turn k t = .ok (true, u)) :
      Before turn i s (k + 1) u

variable {turn : Nat → σ → Except Trap (Bool × σ)} {i k : Nat} {s t u : σ}

theorem Before.le (h : Before turn i s k t) : i ≤ k := by
  induction h with
  | start => exact Nat.le_refl i
  | next _ _ ih => omega

theorem Before.cons (hs : turn i s = .ok (true, t)) (h : Before turn (i + 1) t k u) :
    Before turn i s k u := by
  induction h with
  | start => exact Before.next Before.start hs
  | next _ goes ih => exact Before.next ih goes

theorem Before.cases_head (h : Before turn i s k u) :
    (k = i ∧ u = s) ∨ ∃ t, turn i s = .ok (true, t) ∧ Before turn (i + 1) t k u := by
  induction h with
  | start => exact Or.inl ⟨rfl, rfl⟩
  | next earlier goes ih =>
    rcases ih with ⟨rfl, rfl⟩ | ⟨t, ht, hrest⟩
    · exact Or.inr ⟨_, goes, Before.start⟩
    · exact Or.inr ⟨t, ht, Before.next hrest goes⟩

/-- What every turn keeps holds before every turn. -/
theorem Before.invariant (inv : Nat → σ → Prop)
    (keep : ∀ k t u, inv k t → turn k t = .ok (true, u) → inv (k + 1) u) (start : inv i s)
    (h : Before turn i s k t) : inv k t := by
  induction h with
  | start => exact start
  | next _ goes ih => exact keep _ _ _ ih goes

/-- The loop comes to a turn in one state only. -/
theorem Before.unique (h : Before turn i s k t) (h' : Before turn i s k u) : t = u := by
  induction h generalizing u with
  | start =>
    cases h' with
    | start => rfl
    | next earlier =>
      have := earlier.le
      omega
  | next earlier goes ih =>
    cases h' with
    | start =>
      have := earlier.le
      omega
    | next earlier' goes' =>
      obtain rfl := ih earlier'
      rw [goes] at goes'
      exact congrArg Prod.snd (Except.ok.inj goes')

/-- Every turn before the one that the loop comes to goes on. -/
theorem Before.goes {n : Nat} (h : Before turn i s n t) (hi : i ≤ k) (hk : k < n) :
    ∃ u v, Before turn i s k u ∧ turn k u = .ok (true, v) := by
  induction h with
  | start => omega
  | @next n u v earlier goes ih =>
    rcases Nat.lt_succ_iff_lt_or_eq.mp hk with hlt | rfl
    · exact ih hlt
    · exact ⟨u, v, earlier, goes⟩

theorem loopTurns_succ (n : Nat) : loopTurns turn (n + 1) i s =
    (turn i s >>= fun r => if r.1 then loopTurns turn n (i + 1) r.2 else .ok (false, r.2)) := rfl

/-- The loop runs to its end through states that all go on. -/
theorem loopTurns_true {n : Nat} :
    loopTurns turn n i s = .ok (true, t) ↔ Before turn i s (i + n) t := by
  induction n generalizing i s with
  | zero =>
    constructor
    · intro h
      cases h
      exact Before.start
    · intro h
      rcases h.cases_head with ⟨-, rfl⟩ | ⟨u, -, hrest⟩
      · rfl
      · have := hrest.le
        omega
  | succ n ih =>
    have hnext : i + (n + 1) = i + 1 + n := by omega
    rw [loopTurns_succ, Except.bind_eq_ok, hnext]
    constructor
    · intro h
      obtain ⟨⟨go, u⟩, hu, h⟩ := h
      cases go with
      | true => exact Before.cons hu (ih.mp h)
      | false => cases h
    · intro h
      rcases h.cases_head with ⟨hk, -⟩ | ⟨u, hu, hrest⟩
      · omega
      · exact ⟨(true, u), hu, ih.mpr hrest⟩

end UmbraOS
