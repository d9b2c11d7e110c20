import UmbraOS.VmmTables

namespace UmbraOS

namespace Vmm

variable {P : PageSource pageSize}

/-- The entry `get_next_level` writes for a new table. -/
def tableEntry (page : Nat) : BitVec 64 :=
  BitVec.ofNat 64 (page * pageSize) ||| ptePresent ||| pteWritable ||| pteUser

/-- The machine after a fresh zeroed page is linked as the table below an entry. -/
def linked (m : Machine P) (pmm : P.State) (t page : Nat) (i : Fin 512) : Machine P :=
  ⟨(m.mem.fill (m.pageAt page) (1 * pageSize) 0#8).store64 (t + 8 * i) (tableEntry page), pmm,
    m.hhdm, m.refused⟩

theorem tableEntry_present (page : Nat) : tableEntry page &&& ptePresent ≠ 0#64 := by
  have h : (ptePresent ||| pteWritable ||| pteUser) &&& ptePresent ≠ 0#64 := by decide
  rw [tableEntry, BitVec.or_assoc, BitVec.or_assoc, ← BitVec.or_assoc ptePresent]
  exact present_or h

theorem tableEntry_addr {page : Nat} (h : page < 2 ^ 40) :
    (pteGetAddr (tableEntry page)).toNat = page * pageSize := by
  rw [tableEntry, BitVec.or_assoc, BitVec.or_assoc, ← BitVec.or_assoc ptePresent,
    pteGetAddr_entry h (by decide), BitVec.toNat_ofNat]
  apply Nat.mod_eq_of_lt
  simp only [pageSize]
  omega

theorem linked_byte (m : Machine P) (pmm : P.State) {tp page q : Nat} (i : Fin 512)
    (hq : q ≠ page) (ht : q ≠ tp) {x : Nat} (hx : x < pageSize) :
    (linked m pmm (m.pageAt tp) page i).mem (m.pageAt q + x) = m.mem (m.pageAt q + x) := by
  rw [← fill_other_page m hq hx]
  exact store_other_page ⟨m.mem.fill (m.pageAt page) (1 * pageSize) 0#8, pmm, m.hhdm, m.refused⟩
    ht i (tableEntry page) hx

theorem linked_entry_other (m : Machine P) (pmm : P.State) {tp page q : Nat} {i : Fin 512}
    (hq : q ≠ page) (j : Fin 512) (hne : ¬(q = tp ∧ j = i)) :
    entry (linked m pmm (m.pageAt tp) page i) (m.pageAt q) j = entry m (m.pageAt q) j := by
  by_cases ht : q = tp
  · subst ht
    have hj : j ≠ i := fun h => hne ⟨rfl, h⟩
    have hfill : entry ⟨m.mem.fill (m.pageAt page) (1 * pageSize) 0#8, pmm, m.hhdm, m.refused⟩
        (m.pageAt q) j = entry m (m.pageAt q) j :=
      entry_congr (fun x hx => fill_other_page m hq hx) j
    rw [← hfill]
    exact store_other_entry ⟨_, pmm, m.hhdm, m.refused⟩ q hj _
  · exact entry_congr (fun x hx => linked_byte m pmm i hq ht hx) j

theorem linked_entry_new (m : Machine P) (pmm : P.State) {tp page : Nat} {i : Fin 512}
    (ht : page ≠ tp) (j : Fin 512) :
    entry (linked m pmm (m.pageAt tp) page i) (m.pageAt page) j = 0#64 := by
  have hj := j.isLt
  have hfill : entry ⟨m.mem.fill (m.pageAt page) (1 * pageSize) 0#8, pmm, m.hhdm, m.refused⟩
      (m.pageAt page) j = 0#64 := by
    apply Memory.load64_fill_zero
    · omega
    · simp only [pageSize]; omega
  rw [← hfill]
  exact entry_congr (m := ⟨m.mem.fill (m.pageAt page) (1 * pageSize) 0#8, pmm, m.hhdm, m.refused⟩)
    (fun x hx => store_other_page ⟨_, pmm, m.hhdm, m.refused⟩ ht i _ hx) j

theorem nextTable_congr {m m' : Machine P} (hh : m'.hhdm = m.hhdm) {t : Nat} {i : Fin 512}
    (h : entry m' t i = entry m t i) : nextTable m' t i = nextTable m t i := by
  simp [nextTable, h, Machine.physToVirt, hh]

theorem linked_entry_self (m : Machine P) (pmm : P.State) (t page : Nat) (i : Fin 512) :
    entry (linked m pmm t page i) t i = tableEntry page :=
  Memory.load64_store64 _ _ _

theorem linked_nextTable_self (m : Machine P) (pmm : P.State) (t : Nat) {page : Nat} (i : Fin 512)
    (h : page < 2 ^ 40) : nextTable (linked m pmm t page i) t i = some (m.pageAt page) := by
  rw [nextTable, linked_entry_self, if_pos (tableEntry_present page), tableEntry_addr h]
  rfl

/-- The tree of tables gains one edge, to the fresh page. -/
theorem linked_addsLeaf {m : Machine P} {root : Nat} (pmm : P.State) (hm : m.Ok)
    (ht : Tables m root) {xs : List (Fin 512)} {tp : Nat} {i : Fin 512} (hx : xs.length ≤ 2)
    (hw : walk (nextTable m) root xs = some (m.pageAt tp)) (hn : nextTable m (m.pageAt tp) i = none)
    {page : Nat} (hb : page < P.bound) (hf : ¬m.Used page) :
    AddsLeaf (nextTable m) (nextTable (linked m pmm (m.pageAt tp) page i)) root 3 xs
      (m.pageAt tp) i (m.pageAt page) where
  at_path := hw
  short := by omega
  absent := hn
  edge := linked_nextTable_self m pmm _ i (Nat.lt_of_lt_of_le hb hm.bound)
  bare := by
    intro j
    have hne : page ≠ tp := by
      rintro rfl
      exact hf (ht.used_of_walk (by omega) hw)
    rw [nextTable, linked_entry_new m pmm hne]
    simp
  fresh := by
    intro ys hy hwy
    exact hf (ht.used_of_walk hy hwy)
  same := by
    intro ys q j hy hwy hne
    obtain ⟨qp, rfl, hu⟩ := ht.owned ys q hy hwy
    have hqp : qp ≠ page := by
      rintro rfl
      exact hf hu
    refine nextTable_congr ?_ (linked_entry_other m pmm hqp j ?_)
    · rfl
    · rintro ⟨h, hj⟩
      exact hne ⟨by rw [h], hj⟩

theorem linked_grows {m : Machine P} {root : Nat} {pmm : P.State} (hm : m.Ok)
    (ht : Tables m root) {xs : List (Fin 512)} {tp : Nat} {i : Fin 512} (hx : xs.length ≤ 2)
    (hw : walk (nextTable m) root xs = some (m.pageAt tp)) (hn : nextTable m (m.pageAt tp) i = none)
    {page : Nat} (hb : page < P.bound) (hf : ¬m.Used page) (hok : P.Ok pmm)
    (hu : ∀ q, P.used pmm q ↔ m.Used q ∨ q = page) :
    Grows root m (linked m pmm (m.pageAt tp) page i) := by
  have ha := linked_addsLeaf pmm hm ht hx hw hn hb hf
  have hold : ∀ q, m.Used q → q ≠ page := by
    rintro q hq rfl
    exact hf hq
  refine ⟨⟨hok, hm.aligned, hm.window, hm.bound⟩, ⟨ha.distinct ht.distinct, ?_⟩, rfl, ?_, ?_, ?_,
    ?_, fun h => h⟩
  · intro ys q hy hwy
    rcases ha.walk_cases ht.distinct (show ys.length ≤ 3 + 1 by omega) with he | ⟨_, he⟩
    · obtain ⟨qp, hq, hq'⟩ := ht.owned ys q hy (he ▸ hwy)
      exact ⟨qp, hq, (hu qp).mpr (Or.inl hq')⟩
    · rw [he] at hwy
      exact ⟨page, (Option.some.inj hwy).symm, (hu page).mpr (Or.inr rfl)⟩
  · intro ys q hy hwy
    exact ha.walk_keeps ht.distinct (by omega) hwy
  · intro ys j hy
    rcases ha.walk_cases ht.distinct (show ys.length ≤ 3 + 1 by omega) with he | ⟨rfl, he⟩
    · rw [leafEntry, leafEntry, he]
      cases hwy : walk (nextTable m) root ys with
      | none => rfl
      | some q =>
        obtain ⟨qp, rfl, hq⟩ := ht.owned ys q (by omega) hwy
        apply linked_entry_other m pmm (hold qp hq)
        -- the table of the new edge is at most two indices deep
        rintro ⟨rfl, _⟩
        have := ht.distinct ys xs _ (by omega) (by omega) hwy hw
        subst this
        omega
    · have hnone := ha.walk_absent []
      rw [List.append_nil] at hnone
      have hne : page ≠ tp := by
        rintro rfl
        exact ha.fresh xs (by omega) hw
      rw [leafEntry, leafEntry, he, hnone]
      exact linked_entry_new m pmm hne j
  · exact fun q hq => (hu q).mpr (Or.inl hq)
  · intro q hq hnt
    refine ⟨?_, fun x hx' => linked_byte m pmm i (hold q hq) ?_ hx'⟩
    · intro ys hy hwy
      rcases ha.walk_cases ht.distinct (show ys.length ≤ 3 + 1 by omega) with he | ⟨_, he⟩
      · exact hnt ys hy (he ▸ hwy)
      · rw [he] at hwy
        exact hold q hq (pageAt_inj (Option.some.inj hwy).symm)
    · rintro rfl
      exact hnt xs (by omega) hw

theorem refused_grows {m : Machine P} {root : Nat} {pmm : P.State} (hm : m.Ok)
    (ht : Tables m root) (hok : P.Ok pmm) (hu : ∀ q, P.used pmm q ↔ m.Used q) :
    Grows root m ⟨m.mem, pmm, m.hhdm, true⟩ := by
  refine ⟨⟨hok, hm.aligned, hm.window, hm.bound⟩, ⟨ht.distinct, ?_⟩, rfl, fun _ _ _ h => h,
    fun _ _ _ => rfl, fun q h => (hu q).mpr h, fun _ _ h => ⟨h, fun _ _ => rfl⟩, fun _ => rfl⟩
  intro ys q hy hwy
  obtain ⟨qp, hq, hq'⟩ := ht.owned ys q hy hwy
  exact ⟨qp, hq, (hu qp).mpr hq'⟩

/-- The step of `get_next_level` past an entry that is not present. -/
def linkTable (t : Nat) (i : Nat) (r : Nat × Machine P) : Option Nat × Machine P :=
  if r.1 = 0 then (none, r.2)
  else
    (some (r.2.physToVirt r.1), { r.2 with
      mem := r.2.mem.store64 (t + 8 * i)
        (BitVec.ofNat 64 r.1 ||| ptePresent ||| pteWritable ||| pteUser) })

theorem getNextLevel_absent {m : Machine P} {t i : Nat}
    (h : ¬entry m t i &&& ptePresent ≠ 0#64) :
    getNextLevel m t i true = linkTable t i (m.calloc 1) := by
  rw [getNextLevel, if_neg h]
  rfl

theorem linkTable_refused (t i : Nat) (m : Machine P) : linkTable t i (0, m) = (none, m) := by
  rw [linkTable, if_pos rfl]

theorem linkTable_run (m : Machine P) (pmm : P.State) (t : Nat) {page : Nat} (i : Fin 512)
    (h : 0 < page) :
    linkTable t i (page * pageSize,
      ⟨m.mem.fill (m.pageAt page) (1 * pageSize) 0#8, pmm, m.hhdm, m.refused⟩) =
      (some (m.pageAt page), linked m pmm t page i) := by
  have hne : ¬page * pageSize = 0 := by simp only [pageSize]; omega
  rw [linkTable, if_neg hne]
  rfl

/-- A walk down to the table at a path: the table is there afterwards, or the allocator
refused a page and the path was not in the tree. -/
structure Reaches (root : Nat) (m : Machine P) (xs : List (Fin 512)) (r : Option Nat × Machine P) :
    Prop where
  grows : Grows root m r.2
  found : ∀ t, r.1 = some t → walk (nextTable r.2) root xs = some t
  missing : r.1 = none → walk (nextTable m) root xs = none ∧ r.2.refused = true

theorem getNextLevel_reaches {m : Machine P} {root t : Nat} (hm : m.Ok) (ht : Tables m root)
    {xs : List (Fin 512)} (hx : xs.length ≤ 2) (hw : walk (nextTable m) root xs = some t)
    (i : Fin 512) : Reaches root m (xs ++ [i]) (getNextLevel m t i true) := by
  obtain ⟨tp, rfl, hu⟩ := ht.owned xs t (by omega) hw
  by_cases hp : entry m (m.pageAt tp) i &&& ptePresent ≠ 0#64
  · have hg : getNextLevel m (m.pageAt tp) i true =
        (some (m.physToVirt (pteGetAddr (entry m (m.pageAt tp) i)).toNat), m) := by
      rw [getNextLevel, if_pos hp]
    rw [hg]
    refine ⟨Grows.refl hm ht, ?_, fun h => by cases h⟩
    intro q hq
    rw [walk_snoc, hw, Option.bind_some, nextTable, if_pos hp]
    exact hq
  · have hn : nextTable m (m.pageAt tp) i = none := by rw [nextTable, if_neg hp]
    have hnone : walk (nextTable m) root (xs ++ [i]) = none := by
      rw [walk_snoc, hw, Option.bind_some, hn]
    have hc := Machine.calloc_spec hm Nat.one_pos
    rw [getNextLevel_absent hp]
    generalize m.calloc 1 = r at hc ⊢
    cases hc with
    | refused pmm ok used =>
      rw [linkTable_refused]
      exact ⟨refused_grows hm ht ok used, (by rintro q h; cases h), fun _ => ⟨hnone, rfl⟩⟩
    | run page pmm ok positive inside fresh used =>
      have hf : ¬m.Used page := fresh page (le_refl _) (by omega)
      rw [linkTable_run m pmm _ i positive]
      have hused : ∀ q, P.used pmm q ↔ m.Used q ∨ q = page := by
        intro q
        rw [used q, show (page ≤ q ∧ q < page + 1) = (q = page) from propext (by omega)]
      have hgrow : Grows root m (linked m pmm (m.pageAt tp) page i) :=
        linked_grows hm ht hx hw hn (by omega) hf ok hused
      have ha := linked_addsLeaf pmm hm ht hx hw hn (by omega) hf
      refine ⟨hgrow, ?_, fun h => by cases h⟩
      rintro q hq
      cases hq
      exact ha.walk_edge ht.distinct

theorem calloc_one (m : Machine P) :
    (m.calloc 1).1 = (P.alloc 1 m.pmm).1 ∧ (m.calloc 1).2.pmm = (P.alloc 1 m.pmm).2 := by
  simp only [Machine.calloc, Machine.alloc, if_neg Nat.one_ne_zero]
  split
  next => exact ⟨rfl, rfl⟩
  next hz => exact ⟨(not_not.mp hz).symm, rfl⟩

/-- A walk has come to a table, and the allocator serves what the path lacks below it. -/
def ServedBelow (r : Option Nat × Machine P) (is : List (Fin 512)) : Prop :=
  ∃ q, r.1 = some q ∧ P.Serves (missingEdges (nextTable r.2) q is) r.2.pmm

theorem servedBelow_none (m : Machine P) (is : List (Fin 512)) :
    ¬ServedBelow (none, m) is := by
  rintro ⟨q, hq, -⟩
  cases hq

theorem servedBelow_some (m : Machine P) (t : Nat) (is : List (Fin 512)) :
    ServedBelow (some t, m) is ↔ P.Serves (missingEdges (nextTable m) t is) m.pmm := by
  constructor
  · rintro ⟨q, hq, h⟩
    cases hq
    exact h
  · exact fun h => ⟨t, rfl, h⟩

/-- A step along a path asks for the first of the pages that the path lacks, and for no page
where its table exists. -/
theorem getNextLevel_served {m : Machine P} {root t : Nat} (hm : m.Ok) (ht : Tables m root)
    {xs : List (Fin 512)} (hx : xs.length ≤ 2) (hw : walk (nextTable m) root xs = some t)
    (i : Fin 512) (is : List (Fin 512)) :
    P.Serves (missingEdges (nextTable m) t (i :: is)) m.pmm ↔
      ServedBelow (getNextLevel m t i true) is := by
  obtain ⟨tp, rfl, hu⟩ := ht.owned xs t (by omega) hw
  by_cases hp : entry m (m.pageAt tp) i &&& ptePresent ≠ 0#64
  · have hg : getNextLevel m (m.pageAt tp) i true =
        (some (m.physToVirt (pteGetAddr (entry m (m.pageAt tp) i)).toNat), m) := by
      rw [getNextLevel, if_pos hp]
    rw [hg, missingEdges_edge is (by rw [nextTable, if_pos hp]), servedBelow_some]
  · have hn : nextTable m (m.pageAt tp) i = none := by rw [nextTable, if_neg hp]
    have hc := Machine.calloc_spec hm Nat.one_pos
    obtain ⟨haddr, hpmm⟩ := calloc_one m
    rw [missingEdges_absent is hn, PageSource.Serves, getNextLevel_absent hp, ← haddr, ← hpmm]
    generalize m.calloc 1 = r at hc ⊢
    cases hc with
    | refused pmm ok used =>
      rw [linkTable_refused]
      exact iff_of_false (fun h => h.1 rfl) (servedBelow_none _ is)
    | run page pmm ok positive inside fresh used =>
      have hf : ¬m.Used page := fresh page (le_refl _) (by omega)
      have hne : page * pageSize ≠ 0 := Nat.mul_ne_zero (by omega) (by decide)
      have ha := linked_addsLeaf pmm hm ht hx hw hn (by omega) hf
      rw [linkTable_run m pmm _ i positive, servedBelow_some, missingEdges_bare ha.bare]
      exact and_iff_right hne

end Vmm

end UmbraOS
