import UmbraOS.SpaceTables

namespace UmbraOS

namespace Vmm

variable {P : PageSource pageSize}

/-- The paths of the tables that belong to one space only. -/
def OwnPath : List (Fin 512) → Prop
  | [] => True
  | i :: _ => (i : Nat) < 256

def Own (m : Machine P) (root page : Nat) : Prop :=
  ∃ xs, xs.length ≤ 3 ∧ OwnPath xs ∧ walk (nextTable m) root xs = some (m.pageAt page)

/-- Every table of the level below the top is there in the higher half. -/
def Upper (m : Machine P) (root : Nat) : Prop :=
  ∀ i : Fin 512, 256 ≤ (i : Nat) → nextTable m root i ≠ none

/-- Two spaces have their higher halves in common and nothing else. -/
structure Split (m : Machine P) (a b : Nat) : Prop where
  shared : ∀ i : Fin 512, 256 ≤ (i : Nat) → nextTable m a i = nextTable m b i
  apart : ∀ page, Own m a page → ¬Own m b page

theorem Split.symm {m : Machine P} {a b : Nat} (h : Split m a b) : Split m b a :=
  ⟨fun i hi => (h.shared i hi).symm, fun page hb ha => h.apart page ha hb⟩

theorem OwnPath.of_prefix {xs zs : List (Fin 512)} (h : OwnPath xs) (hz : zs <+: xs) :
    OwnPath zs := by
  obtain ⟨ys, rfl⟩ := hz
  cases zs with
  | nil => trivial
  | cons i zs => exact h

theorem offset_top (w : Nat) : (offset w 39 : Nat) = w / 2 ^ 39 % 512 := by
  have hmask : (w >>> 39) &&& 0x1ff = (w >>> 39) % 512 := Nat.and_two_pow_sub_one_eq_mod _ 9
  have hoffset : (offset w 39 : Nat) = (w >>> 39) % 512 := hmask
  rw [hoffset, Nat.shiftRight_eq_div_pow]

theorem LowerHalf.ownPath {w : Nat} (h : LowerHalf w) : OwnPath (tablePath w) := by
  have hoffset := offset_top w
  unfold LowerHalf at h
  have hlt : (offset w 39 : Nat) < 256 := by omega
  exact hlt

theorem upper_offset {w : Nat} (h : ¬LowerHalf w) : 256 ≤ (offset w 39 : Nat) := by
  have hoffset := offset_top w
  unfold LowerHalf at h
  omega

theorem walk_shared {m : Machine P} {a b : Nat} {i : Fin 512}
    (h : nextTable m a i = nextTable m b i) (zs : List (Fin 512)) :
    walk (nextTable m) a (i :: zs) = walk (nextTable m) b (i :: zs) := by
  rw [walk, walk, h]

theorem Own.root {m : Machine P} {a : Nat} (ht : Tables m a) :
    ∃ page, a = m.pageAt page ∧ Own m a page := by
  obtain ⟨page, ha, -⟩ := ht.owned [] a (Nat.zero_le 3) rfl
  exact ⟨page, ha, [], Nat.zero_le 3, trivial, congrArg some ha⟩

theorem Own.used {m : Machine P} {a page : Nat} (ht : Tables m a) (h : Own m a page) :
    m.Used page := by
  obtain ⟨xs, hx, -, hw⟩ := h
  exact ht.used_of_walk hx hw

/-- A table of one space's own is no table of another. -/
theorem Own.notTable {m : Machine P} {a b page : Nat} (hb : Tables m b) (h : Split m a b)
    (hp : Own m b page) : NotTable m a page := by
  intro ys hy hw
  obtain ⟨xs, hx, hown, hwx⟩ := hp
  cases ys with
  | nil => exact h.apart page ⟨[], hy, trivial, hw⟩ ⟨xs, hx, hown, hwx⟩
  | cons i zs =>
    by_cases hi : (i : Nat) < 256
    · exact h.apart page ⟨i :: zs, hy, hi, hw⟩ ⟨xs, hx, hown, hwx⟩
    · rw [walk_shared (h.shared i (by omega))] at hw
      have hsame : xs = i :: zs := hb.distinct xs (i :: zs) _ hx hy hwx hw
      subst hsame
      exact hi hown

/-- A call on the space at `a`, as the space at `b` sees it. -/
structure Beside (a b : Nat) (m m' : Machine P) : Prop where
  worked : Worked a m m'
  tables : Tables m b
  split : Split m a b
  upper : Upper m a

namespace Beside

variable {a b : Nat} {m m' : Machine P}

theorem bytes (h : Beside a b m m') {page : Nat} (hp : Own m b page) :
    ∀ x < pageSize, m'.mem (m.pageAt page + x) = m.mem (m.pageAt page + x) :=
  (h.worked.keeps.others page (hp.used h.tables) (hp.notTable h.tables h.split)).2

theorem walk_own (h : Beside a b m m') {xs : List (Fin 512)} (hx : xs.length ≤ 3)
    (hown : OwnPath xs) : walk (nextTable m') b xs = walk (nextTable m) b xs := by
  apply walk_kept h.worked.keeps.hhdm h.tables hx
  intro zs page hz hw
  have hlen := hz.length_le
  exact h.bytes ⟨zs, by omega, hown.of_prefix hz, hw⟩

theorem edge (h : Beside a b m m') (i : Fin 512) : nextTable m' b i = nextTable m b i := by
  obtain ⟨page, hb, hown⟩ := Own.root h.tables
  have hbytes := h.bytes hown
  rw [hb]
  exact nextTable_congr h.worked.keeps.hhdm (entry_congr hbytes i)

theorem shared (h : Beside a b m m') (i : Fin 512) (hi : 256 ≤ (i : Nat)) :
    nextTable m' a i = nextTable m' b i := by
  obtain ⟨t, ht⟩ := Option.ne_none_iff_exists'.mp (h.upper i hi)
  rw [h.edge, ← h.split.shared i hi, ht]
  exact h.worked.edges i t ht

theorem own_before (h : Beside a b m m') {page : Nat} (hp : Own m' b page) : Own m b page := by
  obtain ⟨xs, hx, hown, hw⟩ := hp
  rw [h.walk_own hx hown, pageAt_hhdm h.worked.keeps.hhdm] at hw
  exact ⟨xs, hx, hown, hw⟩

/-- A path ends in a table of the space's own, or it is a path of the other space too. -/
theorem walk_cases (h : Beside a b m m') {xs : List (Fin 512)} (hx : xs.length ≤ 3) {t : Nat}
    (hw : walk (nextTable m') b xs = some t) :
    OwnPath xs ∧ walk (nextTable m) b xs = some t ∨
      ¬OwnPath xs ∧ walk (nextTable m') a xs = some t := by
  by_cases hown : OwnPath xs
  · rw [h.walk_own hx hown] at hw
    exact Or.inl ⟨hown, hw⟩
  · refine Or.inr ⟨hown, ?_⟩
    cases xs with
    | nil => exact absurd trivial hown
    | cons i zs =>
      rw [walk_shared (h.shared i (by unfold OwnPath at hown; omega))]
      exact hw

theorem notTable (h : Beside a b m m') {page : Nat} (hp : Own m b page) : NotTable m' a page :=
  (h.worked.keeps.others page (hp.used h.tables) (hp.notTable h.tables h.split)).1

theorem not_both (h : Beside a b m m') {xs ys : List (Fin 512)} {t : Nat} (hx : xs.length ≤ 3)
    (hy : ys.length ≤ 3) (hown : OwnPath xs) (hwx : walk (nextTable m) b xs = some t)
    (hwy : walk (nextTable m') a ys = some t) : False := by
  obtain ⟨page, rfl, -⟩ := h.tables.owned xs t hx hwx
  rw [← pageAt_hhdm h.worked.keeps.hhdm] at hwy
  exact h.notTable ⟨xs, hx, hown, hwx⟩ ys hy hwy

theorem tables_after (h : Beside a b m m') : Tables m' b := by
  have hta := h.worked.keeps.tables
  refine ⟨fun xs ys t hx hy hwx hwy => ?_, fun xs t hx hw => ?_⟩
  · rcases h.walk_cases hx hwx with ⟨hox, hx'⟩ | ⟨-, hx'⟩
    · rcases h.walk_cases hy hwy with ⟨-, hy'⟩ | ⟨-, hy'⟩
      · exact h.tables.distinct xs ys t hx hy hx' hy'
      · exact absurd hy' fun hy' => h.not_both hx hy hox hx' hy'
    · rcases h.walk_cases hy hwy with ⟨hoy, hy'⟩ | ⟨-, hy'⟩
      · exact absurd hx' fun hx' => h.not_both hy hx hoy hy' hx'
      · exact hta.distinct xs ys t hx hy hx' hy'
  · rcases h.walk_cases hx hw with ⟨-, hw'⟩ | ⟨-, hw'⟩
    · obtain ⟨page, rfl, hu⟩ := h.tables.owned xs t hx hw'
      exact ⟨page, (pageAt_hhdm h.worked.keeps.hhdm page).symm, h.worked.keeps.used page hu⟩
    · exact hta.owned xs t hx hw'

theorem inside_after (h : Beside a b m m') (ha : Inside m a) (hb : Inside m b) :
    Inside m' b := by
  intro xs page hx hw
  rcases h.walk_cases hx hw with ⟨-, hw'⟩ | ⟨-, hw'⟩
  · rw [pageAt_hhdm h.worked.keeps.hhdm] at hw'
    exact hb xs page hx hw'
  · exact h.worked.inside ha xs page hx hw'

theorem split_after (h : Beside a b m m') : Split m' a b := by
  refine ⟨h.shared, fun page ha hb => ?_⟩
  obtain ⟨ys, hy, -, hwy⟩ := ha
  exact h.notTable (h.own_before hb) ys hy hwy

/-- No translation of the lower half changes. -/
theorem pte_lower (h : Beside a b m m') {w : Nat} (hw : LowerHalf w) :
    pte m' b w = pte m b w := by
  have hown : OwnPath (tablePath w) := hw.ownPath
  have hlen : (tablePath w).length ≤ 3 := Nat.le_refl 3
  have hwalk := h.walk_own hlen hown
  cases hq : walk (nextTable m) b (tablePath w) with
  | none => rw [pte, pte, leafEntry_of_missing (hwalk.trans hq), leafEntry_of_missing hq]
  | some t =>
    obtain ⟨page, rfl, -⟩ := h.tables.owned _ t hlen hq
    rw [pte, pte, leafEntry_of_walk (hwalk.trans hq), leafEntry_of_walk hq]
    exact entry_congr (h.bytes ⟨_, hlen, hown, hq⟩) (offset w 12)

end Beside

end Vmm

end UmbraOS
