import Mathlib.Data.List.Infix

namespace UmbraOS

variable {P I : Type}

/-- The node at the end of a path of labels from `p`, if every edge of it exists. -/
def walk (next : P → I → Option P) : P → List I → Option P
  | p, [] => some p
  | p, i :: is => (next p i).bind fun q => walk next q is

variable {next next' : P → I → Option P}

@[simp] theorem walk_nil (p : P) : walk next p [] = some p := rfl

theorem walk_append (p : P) (xs ys : List I) :
    walk next p (xs ++ ys) = (walk next p xs).bind fun q => walk next q ys := by
  induction xs generalizing p with
  | nil => rfl
  | cons i xs ih =>
    simp only [List.cons_append, walk]
    cases next p i with
    | none => rfl
    | some q => exact ih q

theorem walk_snoc (p : P) (xs : List I) (i : I) :
    walk next p (xs ++ [i]) = (walk next p xs).bind fun q => next q i := by
  rw [walk_append]
  congr
  funext q
  simp [walk]

/-- Two graphs that agree on every edge tried along a path agree on the path. -/
theorem walk_congr {p : P} {ys : List I}
    (h : ∀ zs j, zs ++ [j] <+: ys → ∀ q, walk next p zs = some q → next' q j = next q j) :
    walk next' p ys = walk next p ys := by
  induction ys generalizing p with
  | nil => rfl
  | cons i ys ih =>
    simp only [walk]
    rw [h [] i (by simp) p rfl]
    cases hq : next p i with
    | none => rfl
    | some q =>
      refine ih fun zs j hz r hr => h (i :: zs) j ?_ r ?_
      · simpa using hz
      · simpa [walk, hq] using hr

/-- The number of edges that a path from `p` lacks: all of it from the first missing one on. -/
def missingEdges (next : P → I → Option P) : P → List I → Nat
  | _, [] => 0
  | p, i :: is =>
    match next p i with
    | none => is.length + 1
    | some q => missingEdges next q is

theorem missingEdges_absent {p : P} {i : I} (is : List I) (h : next p i = none) :
    missingEdges next p (i :: is) = is.length + 1 := by
  rw [missingEdges, h]

theorem missingEdges_edge {p q : P} {i : I} (is : List I) (h : next p i = some q) :
    missingEdges next p (i :: is) = missingEdges next q is := by
  rw [missingEdges, h]

/-- Below a node without edges the whole path is missing. -/
theorem missingEdges_bare {p : P} (h : ∀ i, next p i = none) (is : List I) :
    missingEdges next p is = is.length := by
  cases is with
  | nil => rfl
  | cons i is => exact missingEdges_absent is (h i)

/-- No node is reached by two paths of at most `depth` labels. -/
def Distinct (next : P → I → Option P) (root : P) (depth : Nat) : Prop :=
  ∀ xs ys p, xs.length ≤ depth → ys.length ≤ depth → walk next root xs = some p →
    walk next root ys = some p → xs = ys

/-- The graph `next'` is `next` with one more edge, from the node `t` along `i` to the node
`f`, which was not reached before and has no edges. -/
structure AddsLeaf (next next' : P → I → Option P) (root : P) (depth : Nat) (xs : List I) (t : P)
    (i : I) (f : P) : Prop where
  at_path : walk next root xs = some t
  short : xs.length ≤ depth
  absent : next t i = none
  edge : next' t i = some f
  bare : ∀ j, next' f j = none
  fresh : ∀ ys, ys.length ≤ depth → walk next root ys ≠ some f
  same : ∀ ys q j, ys.length ≤ depth → walk next root ys = some q → ¬(q = t ∧ j = i) →
    next' q j = next q j

variable {root t f : P} {depth : Nat} {xs : List I} {i : I}

theorem AddsLeaf.walk_old (h : AddsLeaf next next' root depth xs t i f)
    (hd : Distinct next root depth) {ys : List I} (hy : ys.length ≤ depth + 1)
    (hp : ¬xs ++ [i] <+: ys) : walk next' root ys = walk next root ys := by
  apply walk_congr
  intro zs j hz q hq
  have hlen := hz.length_le
  simp only [List.length_append, List.length_singleton] at hlen
  apply h.same zs q j (by omega) hq
  rintro ⟨rfl, rfl⟩
  have := hd zs xs q (by omega) h.short hq h.at_path
  subst this
  exact hp hz

theorem AddsLeaf.walk_new (h : AddsLeaf next next' root depth xs t i f)
    (hd : Distinct next root depth) (ws : List I) :
    walk next' root (xs ++ [i] ++ ws) = if ws = [] then some f else none := by
  have hx : walk next' root xs = some t := by
    rw [h.walk_old hd (by have := h.short; omega), h.at_path]
    intro hp
    have := hp.length_le
    simp only [List.length_append, List.length_singleton] at this
    omega
  rw [walk_append, walk_snoc, hx]
  simp only [Option.bind_some, h.edge]
  cases ws with
  | nil => rfl
  | cons j ws => simp [walk, h.bare j]

theorem AddsLeaf.walk_edge (h : AddsLeaf next next' root depth xs t i f)
    (hd : Distinct next root depth) : walk next' root (xs ++ [i]) = some f := by
  have hnew := h.walk_new hd []
  rwa [List.append_nil, if_pos rfl] at hnew

theorem AddsLeaf.walk_absent (h : AddsLeaf next next' root depth xs t i f) (ws : List I) :
    walk next root (xs ++ [i] ++ ws) = none := by
  rw [walk_append, walk_snoc, h.at_path]
  simp [h.absent]

/-- A path is either an old one, the new edge's, or runs past the new node. -/
theorem AddsLeaf.walk_cases (h : AddsLeaf next next' root depth xs t i f)
    (hd : Distinct next root depth) {ys : List I} (hy : ys.length ≤ depth + 1) :
    walk next' root ys = walk next root ys ∨ ys = xs ++ [i] ∧ walk next' root ys = some f := by
  by_cases hp : xs ++ [i] <+: ys
  · obtain ⟨ws, rfl⟩ := hp
    rw [h.walk_new hd, h.walk_absent]
    cases ws with
    | nil => exact Or.inr ⟨by simp, rfl⟩
    | cons j ws => exact Or.inl rfl
  · exact Or.inl (h.walk_old hd hy hp)

theorem AddsLeaf.walk_keeps (h : AddsLeaf next next' root depth xs t i f)
    (hd : Distinct next root depth) {ys : List I} {p : P} (hy : ys.length ≤ depth + 1)
    (hw : walk next root ys = some p) : walk next' root ys = some p := by
  rw [h.walk_old hd hy, hw]
  rintro ⟨ws, rfl⟩
  rw [h.walk_absent] at hw
  cases hw

theorem AddsLeaf.distinct (h : AddsLeaf next next' root depth xs t i f)
    (hd : Distinct next root depth) : Distinct next' root depth := by
  intro ys zs p hy hz hwy hwz
  rcases h.walk_cases hd (show ys.length ≤ depth + 1 by omega) with ey | ⟨rfl, ey⟩ <;>
  rcases h.walk_cases hd (show zs.length ≤ depth + 1 by omega) with ez | ⟨rfl, ez⟩
  · exact hd ys zs p hy hz (ey ▸ hwy) (ez ▸ hwz)
  · rw [ez] at hwz
    cases hwz
    exact absurd (ey ▸ hwy) (h.fresh ys hy)
  · rw [ey] at hwy
    cases hwy
    exact absurd (ez ▸ hwz) (h.fresh zs hz)
  · rfl

end UmbraOS
