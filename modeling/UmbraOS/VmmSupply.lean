import Mathlib.Data.Finset.Card
import Mathlib.Order.Interval.Finset.Nat
import UmbraOS.MmapRanges

namespace UmbraOS

/-- The paths of the tables of a tree and the number of free pages. -/
@[ext] structure Supply where
  tables : Set (List (Fin 512))
  free : Nat

namespace Supply

open Classical in
/-- A table is asked for: if it is missing, a free page is taken for it. -/
noncomputable def demand (s : Supply) (xs : List (Fin 512)) : Supply :=
  if xs ∈ s.tables ∨ s.free = 0 then s else ⟨insert xs s.tables, s.free - 1⟩

theorem demand_present {s : Supply} {xs : List (Fin 512)} (h : xs ∈ s.tables) :
    s.demand xs = s := if_pos (Or.inl h)

theorem demand_empty {s : Supply} (xs : List (Fin 512)) (h : s.free = 0) : s.demand xs = s :=
  if_pos (Or.inr h)

theorem demand_taken {s : Supply} {xs : List (Fin 512)} (h : xs ∉ s.tables) (hf : s.free ≠ 0) :
    s.demand xs = ⟨insert xs s.tables, s.free - 1⟩ :=
  if_neg fun h' => h'.elim h hf

theorem subset_demand (s : Supply) (xs : List (Fin 512)) : s.tables ⊆ (s.demand xs).tables := by
  unfold demand
  split
  next => exact subset_rfl
  next => exact Set.subset_insert xs s.tables

theorem subset_foldl (s : Supply) (paths : List (List (Fin 512))) :
    s.tables ⊆ (paths.foldl demand s).tables := by
  induction paths generalizing s with
  | nil => exact subset_rfl
  | cons xs paths ih => exact (subset_demand s xs).trans (ih (s.demand xs))

theorem foldl_empty {s : Supply} (h : s.free = 0) (paths : List (List (Fin 512))) :
    paths.foldl demand s = s := by
  induction paths with
  | nil => rfl
  | cons xs paths ih => rw [List.foldl_cons, demand_empty xs h, ih]

end Supply

namespace Vmm

variable {P : PageSource pageSize}

open Classical in
/-- The number of pages that are not used. -/
noncomputable def freePages (m : Machine P) : Nat :=
  ((Finset.range P.bound).filter fun page => ¬m.Used page).card

noncomputable def supply (m : Machine P) (root : Nat) : Supply where
  tables := {xs | xs.length ≤ 3 ∧ walk (nextTable m) root xs ≠ none}
  free := freePages m

theorem freePages_congr {m m' : Machine P} (h : ∀ i, m'.Used i ↔ m.Used i) :
    freePages m' = freePages m := by
  have hsame : m'.Used = m.Used := funext fun i => propext (h i)
  unfold freePages
  rw [hsame]

/-- A run of free pages is taken. -/
theorem freePages_run {m m' : Machine P} {page n : Nat} (hin : page + n ≤ P.bound)
    (hfresh : ∀ i, page ≤ i → i < page + n → ¬m.Used i)
    (hused : ∀ i, m'.Used i ↔ m.Used i ∨ page ≤ i ∧ i < page + n) :
    freePages m' + n = freePages m := by
  classical
  have hrun : Finset.Ico page (page + n) ⊆ (Finset.range P.bound).filter fun i => ¬m.Used i := by
    intro i hi
    obtain ⟨hle, hlt⟩ := Finset.mem_Ico.mp hi
    exact Finset.mem_filter.mpr ⟨Finset.mem_range.mpr (by omega), hfresh i hle hlt⟩
  have hrest : ((Finset.range P.bound).filter fun i => ¬m'.Used i) =
      ((Finset.range P.bound).filter fun i => ¬m.Used i) \ Finset.Ico page (page + n) := by
    ext i
    rw [Finset.mem_sdiff, Finset.mem_filter, Finset.mem_filter, Finset.mem_Ico, hused i, not_or,
      and_assoc]
  have hcard := Finset.card_sdiff_add_card_eq_card hrun
  rw [Nat.card_Ico, Nat.add_sub_cancel_left] at hcard
  unfold freePages
  rw [← hcard, ← hrest]

theorem freePages_refused (hP : P.Complete) {m : Machine P} (hm : m.Ok)
    (h : (P.alloc 1 m.pmm).1 = 0) : freePages m = 0 := by
  classical
  unfold freePages
  refine Finset.card_eq_zero.mpr (Finset.filter_eq_empty_iff.mpr fun page hpage => ?_)
  have hlt := Finset.mem_range.mp hpage
  obtain ⟨i, hle, hi, hu⟩ := hP 1 m.pmm hm.pmm Nat.one_pos h page hlt
  have he : i = page := by omega
  rw [he] at hu
  exact not_not.mpr hu

theorem calloc_refuses (hP : P.Complete) {m : Machine P} (hm : m.Ok)
    (h : (m.calloc 1).1 = 0) : freePages m = 0 := by
  refine freePages_refused hP hm ?_
  by_contra hne
  simp only [Machine.calloc, Machine.alloc, if_neg Nat.one_ne_zero, ne_eq, if_pos hne] at h
  exact hne h

/-- A walk step asks for one table, and finds it afterwards if it is in the tree. -/
structure Supplied (root : Nat) (m : Machine P) (xs : List (Fin 512)) (r : Option Nat × Machine P)
    (s : Supply) : Prop where
  reaches : Reaches root m xs r
  now : supply r.2 root = s
  empty : r.1 = none → s.free = 0 ∧ xs ∉ s.tables

theorem mem_supply {m : Machine P} {root : Nat} {xs : List (Fin 512)} (h : xs.length ≤ 3) :
    xs ∈ (supply m root).tables ↔ walk (nextTable m) root xs ≠ none :=
  ⟨fun hx => hx.2, fun hx => ⟨h, hx⟩⟩

theorem linked_supply {m : Machine P} {root : Nat} {pmm : P.State} (hm : m.Ok)
    (ht : Tables m root) {xs : List (Fin 512)} {tp : Nat} {i : Fin 512} (hx : xs.length ≤ 2)
    (hw : walk (nextTable m) root xs = some (m.pageAt tp)) (hn : nextTable m (m.pageAt tp) i = none)
    {page : Nat} (hb : page < P.bound) (hf : ¬m.Used page)
    (hu : ∀ q, P.used pmm q ↔ m.Used q ∨ q = page) :
    supply (linked m pmm (m.pageAt tp) page i) root = (supply m root).demand (xs ++ [i]) := by
  have ha := linked_addsLeaf pmm hm ht hx hw hn hb hf
  have hlen : (xs ++ [i]).length ≤ 3 := by
    rw [List.length_append, List.length_singleton]
    omega
  have hcount : freePages (linked m pmm (m.pageAt tp) page i) + 1 = freePages m := by
    refine freePages_run hb (fun q hq hq' => ?_) fun q => ?_
    · rw [show q = page by omega]
      exact hf
    · rw [show (page ≤ q ∧ q < page + 1) = (q = page) from propext (by omega)]
      exact hu q
  have habsent : xs ++ [i] ∉ (supply m root).tables := by
    rw [mem_supply hlen, walk_snoc, hw, Option.bind_some, hn]
    exact fun h => h rfl
  have hfree : (supply m root).free ≠ 0 := by
    show freePages m ≠ 0
    omega
  rw [Supply.demand_taken habsent hfree]
  have htables : (supply (linked m pmm (m.pageAt tp) page i) root).tables =
      insert (xs ++ [i]) (supply m root).tables := by
    ext ys
    rw [Set.mem_insert_iff]
    constructor
    · intro hy
      rcases ha.walk_cases ht.distinct (show ys.length ≤ 3 + 1 by have := hy.1; omega) with
        he | ⟨he, -⟩
      · exact Or.inr ⟨hy.1, he ▸ hy.2⟩
      · exact Or.inl he
    · intro hy
      rcases hy with rfl | hy
      · refine ⟨hlen, ?_⟩
        rw [ha.walk_edge ht.distinct]
        exact Option.some_ne_none _
      · obtain ⟨q, hq⟩ := Option.ne_none_iff_exists'.mp hy.2
        refine ⟨hy.1, ?_⟩
        rw [ha.walk_keeps ht.distinct (by have := hy.1; omega) hq]
        exact Option.some_ne_none _
  have hrest : (supply (linked m pmm (m.pageAt tp) page i) root).free =
      (supply m root).free - 1 := by
    show freePages _ = freePages m - 1
    omega
  exact Supply.ext htables hrest

theorem getNextLevel_supplied (hP : P.Complete) {m : Machine P} {root t : Nat} (hm : m.Ok)
    (ht : Tables m root) {xs : List (Fin 512)} (hx : xs.length ≤ 2)
    (hw : walk (nextTable m) root xs = some t) (i : Fin 512) :
    Supplied root m (xs ++ [i]) (getNextLevel m t i true)
      ((supply m root).demand (xs ++ [i])) := by
  have hlen : (xs ++ [i]).length ≤ 3 := by
    rw [List.length_append, List.length_singleton]
    omega
  have hreach := getNextLevel_reaches hm ht hx hw i
  obtain ⟨tp, rfl, -⟩ := ht.owned xs t (by omega) hw
  by_cases hp : entry m (m.pageAt tp) i &&& ptePresent ≠ 0#64
  · have hn : nextTable m (m.pageAt tp) i =
        some (m.physToVirt (pteGetAddr (entry m (m.pageAt tp) i)).toNat) := by
      rw [nextTable, if_pos hp]
    have hthere : xs ++ [i] ∈ (supply m root).tables := by
      rw [mem_supply hlen, walk_snoc, hw, Option.bind_some, hn]
      exact Option.some_ne_none _
    refine ⟨hreach, ?_, ?_⟩
    · rw [getNextLevel, if_pos hp, Supply.demand_present hthere]
    · intro hnone
      rw [getNextLevel, if_pos hp] at hnone
      cases hnone
  · have hn : nextTable m (m.pageAt tp) i = none := by rw [nextTable, if_neg hp]
    have habsent : xs ++ [i] ∉ (supply m root).tables := by
      rw [mem_supply hlen, walk_snoc, hw, Option.bind_some, hn]
      exact fun h => h rfl
    have hc := Machine.calloc_spec hm Nat.one_pos
    have hrefused := calloc_refuses hP hm
    rw [getNextLevel_absent hp] at hreach ⊢
    generalize m.calloc 1 = r at hc hrefused hreach ⊢
    cases hc with
    | refused pmm ok used =>
      have hzero : (supply m root).free = 0 := hrefused rfl
      rw [linkTable_refused] at hreach ⊢
      refine ⟨hreach, ?_, fun _ => ?_⟩
      · rw [Supply.demand_empty _ hzero]
        exact Supply.ext rfl (freePages_congr used)
      · rw [Supply.demand_empty _ hzero]
        exact ⟨hzero, habsent⟩
    | run page pmm ok positive inside fresh used =>
      have hf : ¬m.Used page := fresh page (le_refl _) (by omega)
      rw [linkTable_run m pmm _ i positive] at hreach ⊢
      have hused : ∀ q, P.used pmm q ↔ m.Used q ∨ q = page := by
        intro q
        rw [used q, show (page ≤ q ∧ q < page + 1) = (q = page) from propext (by omega)]
      exact ⟨hreach, linked_supply hm ht hx hw hn (by omega) hf hused, fun h => by cases h⟩

/-- The tables on the way to the last-level entry of an address, from the top down. -/
def tablesOf (v : Nat) : List (List (Fin 512)) :=
  [[offset v 39], [offset v 39, offset v 30], tablePath v]

theorem Supplied.next (hP : P.Complete) {root t : Nat} {m m' : Machine P} {xs : List (Fin 512)}
    {s : Supply} (h : Supplied root m xs (some t, m') s) (hx : xs.length ≤ 2) (i : Fin 512) :
    Supplied root m (xs ++ [i]) (getNextLevel m' t i true) (s.demand (xs ++ [i])) := by
  have hg := h.reaches.grows
  have hs := getNextLevel_supplied hP hg.ok hg.tables hx (h.reaches.found t rfl) i
  have hnow : supply m' root = s := h.now
  rw [hnow] at hs
  exact ⟨h.reaches.next hx i, hs.now, hs.empty⟩

/-- A walk that was refused asks for no more tables; there would be no page for them. -/
theorem Supplied.stop {root : Nat} {m m' : Machine P} {xs : List (Fin 512)} {s : Supply}
    (h : Supplied root m xs (none, m') s) (hx : xs.length ≤ 2) (i : Fin 512) :
    Supplied root m (xs ++ [i]) (none, m') (s.demand (xs ++ [i])) := by
  obtain ⟨hzero, habsent⟩ := h.empty rfl
  have hnow : supply m' root = s := h.now
  rw [Supply.demand_empty _ hzero]
  refine ⟨h.reaches.stop [i], h.now, fun _ => ⟨hzero, fun hmem => habsent ?_⟩⟩
  have hlen : (xs ++ [i]).length ≤ 3 := by
    rw [List.length_append, List.length_singleton]
    omega
  rw [← hnow, mem_supply hlen, walk_append] at hmem
  rw [← hnow, mem_supply (by omega)]
  intro hnone
  rw [hnone] at hmem
  exact hmem rfl

theorem virtToPte_supplied (hP : P.Complete) {m : Machine P} {root : Nat} (hm : m.Ok)
    (ht : Tables m root) (v : Nat) :
    ∃ r, Supplied root m (tablePath v) r ((tablesOf v).foldl Supply.demand (supply m root)) ∧
      virtToPte m root v = (r.1.map fun t => t + 8 * (offset v 12 : Nat), r.2) := by
  have h4 : Supplied root m [offset v 39] (getNextLevel m root (pml4Offset v) true)
      ((supply m root).demand [offset v 39]) :=
    getNextLevel_supplied hP hm ht (show [].length ≤ 2 by simp) rfl (offset v 39)
  have hone : [offset v 39].length ≤ 2 := by simp
  have htwo : [offset v 39, offset v 30].length ≤ 2 := by simp
  rw [virtToPte]
  generalize getNextLevel m root (pml4Offset v) true = r4 at h4 ⊢
  rcases r4 with ⟨_ | pml3, m4⟩
  · exact ⟨(none, m4), (h4.stop hone (offset v 30)).stop htwo (offset v 21), rfl⟩
  have h3 := h4.next hP hone (offset v 30)
  rw [ifNull_some]
  generalize hr3 : getNextLevel m4 pml3 (pml3Offset v) true = r3
  have h3' : Supplied root m [offset v 39, offset v 30] r3
      (((supply m root).demand [offset v 39]).demand [offset v 39, offset v 30]) := hr3 ▸ h3
  rcases r3 with ⟨_ | pml2, m3⟩
  · exact ⟨(none, m3), h3'.stop htwo (offset v 21), rfl⟩
  have h2 := h3'.next hP htwo (offset v 21)
  rw [ifNull_some]
  generalize hr2 : getNextLevel m3 pml2 (pml2Offset v) true = r2
  have h2' : Supplied root m (tablePath v) r2
      ((tablesOf v).foldl Supply.demand (supply m root)) := hr2 ▸ h2
  rcases r2 with ⟨_ | pml1, m2⟩
  · exact ⟨(none, m2), h2', rfl⟩
  · exact ⟨(some pml1, m2), h2', rfl⟩

variable {space : AddressSpace}

theorem stored_supply {m : Machine P} {root tp : Nat} (ht : Tables m root) {xs : List (Fin 512)}
    (hx : xs.length = 3) (hw : walk (nextTable m) root xs = some (m.pageAt tp)) (i : Fin 512)
    (e : BitVec 64) : supply (stored m (m.pageAt tp) i e) root = supply m root := by
  refine Supply.ext ?_ (freePages_congr fun _ => Iff.rfl)
  ext ys
  constructor
  · intro hy
    have hwalk := hy.2
    rw [stored_walk ht hx hw i e hy.1] at hwalk
    exact ⟨hy.1, hwalk⟩
  · intro hy
    refine ⟨hy.1, ?_⟩
    rw [stored_walk ht hx hw i e hy.1]
    exact hy.2

/-- A mapping asks for the tables of its address, and is entered if it gets them. -/
theorem map_supply (hP : P.Complete) {m : Machine P} (hm : m.Ok) (ht : Tables m space.pml4)
    (v p : Nat) (flags : BitVec 64) :
    supply (space.map m v p flags) space.pml4 =
        (tablesOf v).foldl Supply.demand (supply m space.pml4) ∧
      ((virtToPte m space.pml4 v).1 ≠ none ↔
        tablePath v ∈ ((tablesOf v).foldl Supply.demand (supply m space.pml4)).tables) ∧
      (tablePath v ∉ ((tablesOf v).foldl Supply.demand (supply m space.pml4)).tables →
        ((tablesOf v).foldl Supply.demand (supply m space.pml4)).free = 0) := by
  obtain ⟨⟨r, m'⟩, hs, heq⟩ := virtToPte_supplied hP hm ht v
  have hnow : supply m' space.pml4 = _ := hs.now
  have hempty := hs.empty
  have hfound := hs.reaches.found
  have hg : Grows space.pml4 m m' := hs.reaches.grows
  rw [AddressSpace.map, heq]
  generalize (tablesOf v).foldl Supply.demand (supply m space.pml4) = s at hnow hempty ⊢
  cases r with
  | none =>
    obtain ⟨hzero, habsent⟩ := hempty rfl
    rw [Option.map_none, ifNull_none]
    exact ⟨hnow, ⟨fun h => absurd rfl h, fun h => absurd h habsent⟩, fun _ => hzero⟩
  | some t =>
    have hw : walk (nextTable m') space.pml4 (tablePath v) = some t := hfound t rfl
    obtain ⟨tp, rfl, -⟩ := hg.tables.owned _ t (by simp [tablePath]) hw
    have hthere : tablePath v ∈ s.tables := by
      rw [← hnow, mem_supply (by simp [tablePath]), hw]
      exact Option.some_ne_none _
    rw [Option.map_some, ifNull_some]
    refine ⟨?_, ⟨fun _ => hthere, fun _ => Option.some_ne_none _⟩, fun h => absurd hthere h⟩
    split
    next => exact hnow
    next => exact (stored_supply hg.tables rfl hw (offset v 12) _).trans hnow

/-- The tables that a list of mappings asks for. -/
def tablesOfAll (maps : List Mapping) : List (List (Fin 512)) := maps.flatMap fun x => tablesOf x.virt

theorem tablesOfAll_cons (x : Mapping) (maps : List Mapping) :
    tablesOfAll (x :: maps) = tablesOf x.virt ++ tablesOfAll maps := List.flatMap_cons

theorem mapAll_supply (hP : P.Complete) {m : Machine P} (hm : m.Ok) (ht : Tables m space.pml4)
    (maps : List Mapping) : supply (space.mapAll m maps) space.pml4 =
      (tablesOfAll maps).foldl Supply.demand (supply m space.pml4) := by
  induction maps generalizing m with
  | nil => rfl
  | cons x maps ih =>
    have hk := (map_keeps_pte hm ht x.virt x.phys x.flags).1
    rw [AddressSpace.mapAll_cons, ih hk.ok hk.tables,
      (map_supply hP hm ht x.virt x.phys x.flags).1, tablesOfAll_cons, List.foldl_append]

/-- The entries after a list of mappings when table pages can run out: a page that was not
mapped is mapped by the first mapping for it if its tables were there or could be made. -/
theorem mapAll_pte_supply (hP : P.Complete) {m : Machine P} (hm : m.Ok)
    (ht : Tables m space.pml4) {maps : List Mapping}
    (hpresent : ∀ x ∈ maps, x.flags &&& ptePresent ≠ 0#64) (w : Nat) :
    pte (space.mapAll m maps) space.pml4 w = pte m space.pml4 w ∧
        (pte m space.pml4 w &&& ptePresent ≠ 0#64 ∨ (∀ x ∈ maps, ¬SamePage x.virt w) ∨
          tablePath w ∉ ((tablesOfAll maps).foldl Supply.demand (supply m space.pml4)).tables) ∨
      pte m space.pml4 w &&& ptePresent = 0#64 ∧
        tablePath w ∈ ((tablesOfAll maps).foldl Supply.demand (supply m space.pml4)).tables ∧
        ∃ x ∈ maps, SamePage x.virt w ∧ pte (space.mapAll m maps) space.pml4 w = x.entry := by
  induction maps generalizing m with
  | nil => exact Or.inl ⟨rfl, Or.inr (Or.inl fun x hx => by cases hx)⟩
  | cons x maps ih =>
    obtain ⟨hk, henter, hskip⟩ := map_keeps_pte hm ht x.virt x.phys x.flags
    obtain ⟨hsupply, hwalk, hempty⟩ := map_supply hP hm ht x.virt x.phys x.flags
    have hnext := ih hk.ok hk.tables fun y hy => hpresent y (List.mem_cons_of_mem x hy)
    rw [hsupply] at hnext
    rw [AddressSpace.mapAll_cons, tablesOfAll_cons, List.foldl_append]
    generalize (tablesOf x.virt).foldl Supply.demand (supply m space.pml4) = s
      at hwalk hempty hnext ⊢
    by_cases hw : pte m space.pml4 w &&& ptePresent = 0#64
    · by_cases hsame : SamePage x.virt w
      · have hpath : tablePath x.virt = tablePath w := ((samePage_iff _ _).mp hsame).1
        by_cases hgot : tablePath x.virt ∈ s.tables
        · -- this is the first mapping for the page, and it gets its tables
          have hv : pte m space.pml4 x.virt &&& ptePresent = 0#64 := by
            rw [hsame.pte]
            exact hw
          have hentry := henter ⟨hwalk.mpr hgot, hv⟩ w
          rw [if_pos hsame] at hentry
          have hset : pte (space.map m x.virt x.phys x.flags) space.pml4 w &&& ptePresent ≠
              0#64 := by
            rw [hentry]
            exact present_or (hpresent x List.mem_cons_self)
          rcases hnext with ⟨hfinal, -⟩ | ⟨hclear, -⟩
          · exact Or.inr ⟨hw, hpath ▸ s.subset_foldl _ hgot, x, List.mem_cons_self, hsame,
              hfinal.trans hentry⟩
          · exact absurd hclear hset
        · have hold := hskip (fun he => hgot (hwalk.mp he.1)) w
          have hnone : tablePath w ∉ ((tablesOfAll maps).foldl Supply.demand s).tables := by
            rw [Supply.foldl_empty (hempty hgot), ← hpath]
            exact hgot
          rcases hnext with ⟨hfinal, -⟩ | ⟨-, hin, -⟩
          · exact Or.inl ⟨hfinal.trans hold, Or.inr (Or.inr hnone)⟩
          · exact absurd hin hnone
      · have hold : pte (space.map m x.virt x.phys x.flags) space.pml4 w =
            pte m space.pml4 w := by
          by_cases he : Enters m space.pml4 x.virt
          · rw [henter he w, if_neg hsame]
          · exact hskip he w
        rcases hnext with ⟨hfinal, hwhy⟩ | ⟨-, hin, y, hy, hpage, hfinal⟩
        · refine Or.inl ⟨hfinal.trans hold, ?_⟩
          rcases hwhy with hset | hno | hnone
          · rw [hold] at hset
            exact absurd hw hset
          · refine Or.inr (Or.inl fun y hy => ?_)
            rcases List.mem_cons.mp hy with rfl | hy
            · exact hsame
            · exact hno y hy
          · exact Or.inr (Or.inr hnone)
        · exact Or.inr ⟨hw, hin, y, List.mem_cons_of_mem x hy, hpage, hfinal⟩
    · have hold : pte (space.map m x.virt x.phys x.flags) space.pml4 w = pte m space.pml4 w :=
        map_present hm ht hw
      rcases hnext with ⟨hfinal, -⟩ | ⟨hclear, -⟩
      · exact Or.inl ⟨hfinal.trans hold, Or.inl hw⟩
      · rw [hold] at hclear
        exact absurd hclear hw

end Vmm

end UmbraOS
