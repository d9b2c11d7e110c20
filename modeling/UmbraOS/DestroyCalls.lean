import UmbraOS.SpaceDestroy
import Mathlib.Data.List.Nodup

namespace UmbraOS

/-- The same pages, and the calls of `free` are recorded. -/
def PageSource.logged {size : Nat} (P : PageSource size) : PageSource size where
  State := P.State × List (Nat × Nat)
  alloc n s := ((P.alloc n s.1).1, (P.alloc n s.1).2, s.2)
  free addr n s := (P.free addr n s.1, s.2 ++ [(addr, n)])
  Ok s := P.Ok s.1
  used s := P.used s.1
  bound := P.bound
  alloc_ok n s h := P.alloc_ok n s.1 h
  alloc_page n s h := P.alloc_page n s.1 h
  alloc_refused n s h := P.alloc_refused n s.1 h
  free_ok page n s h := P.free_ok page n s.1 h
  free_used page n s h := P.free_used page n s.1 h

namespace Vmm

variable {P Q : PageSource pageSize}

/-- What is gone through below one entry, when `below` goes through a table. -/
def tablesUnder (m : Machine P) (below : Nat → List Nat) (pml i : Nat) : List Nat :=
  (getNextLevel m pml i false).1.elim [] below

/-- The tables that `destroy_pml` goes through, in the order in which it leaves them. -/
def tablesBelow (m : Machine P) (pml start stop : Nat) : Nat → List Nat
  | 0 => []
  | level + 1 =>
    (List.range' start (stop - start)).flatMap
      (tablesUnder m (fun t => tablesBelow m t 0 512 level) pml) ++ [pml]

/-- One page is given back for each table. -/
def freeTables (ts : List Nat) (m : Machine P) : Machine P :=
  ts.foldl (fun m t => m.free (m.virtToPhys t) 1) m

theorem freeTables_nil (m : Machine P) : freeTables [] m = m := rfl

theorem freeTables_append (ts us : List Nat) (m : Machine P) :
    freeTables (ts ++ us) m = freeTables us (freeTables ts m) := List.foldl_append

theorem freeTables_one (t : Nat) (m : Machine P) :
    freeTables [t] m = m.free (m.virtToPhys t) 1 := rfl

/-- The same memory, seen at the same addresses. -/
structure SameMemory (m : Machine P) (m' : Machine Q) : Prop where
  mem : m'.mem = m.mem
  hhdm : m'.hhdm = m.hhdm

theorem freeTables_same (ts : List Nat) (m : Machine P) : SameMemory m (freeTables ts m) := by
  induction ts generalizing m with
  | nil => exact ⟨rfl, rfl⟩
  | cons t ts ih =>
    have h := ih (m.free (m.virtToPhys t) 1)
    exact ⟨h.mem, h.hhdm⟩

theorem SameMemory.level {m : Machine P} {m' : Machine Q} (h : SameMemory m m') (pml i : Nat) :
    (getNextLevel m' pml i false).1 = (getNextLevel m pml i false).1 := by
  have he : entry m' pml i = entry m pml i := by rw [entry, entry, h.mem]
  simp only [getNextLevel, he, Machine.physToVirt, h.hhdm]
  split <;> rfl

theorem SameMemory.under {m : Machine P} {m' : Machine Q} (h : SameMemory m m') (below : Nat → List Nat)
    (pml : Nat) : tablesUnder m' below pml = tablesUnder m below pml := by
  funext i
  rw [tablesUnder, tablesUnder, h.level]

theorem SameMemory.tables {m : Machine P} {m' : Machine Q} (h : SameMemory m m') (level pml start stop : Nat) :
    tablesBelow m' pml start stop level = tablesBelow m pml start stop level := by
  induction level generalizing pml start stop with
  | zero => rw [tablesBelow, tablesBelow]
  | succ level ih =>
    rw [tablesBelow, tablesBelow, h.under, funext fun t => ih t 0 512]

theorem SameMemory.underAll {m : Machine P} {m' : Machine Q} (h : SameMemory m m') (level pml : Nat) :
    tablesUnder m' (fun t => tablesBelow m' t 0 512 level) pml =
      tablesUnder m (fun t => tablesBelow m t 0 512 level) pml := by
  rw [h.under, funext fun t => h.tables level t 0 512]

theorem destroyEntry_calls {m : Machine P} {level : Nat} (ih : ∀ (m : Machine P) (t : Nat),
      destroyPml m t 0 512 level = freeTables (tablesBelow m t 0 512 level) m) (pml i : Nat) :
    destroyEntry pml level m i =
      freeTables (tablesUnder m (fun t => tablesBelow m t 0 512 level) pml i) m := by
  unfold destroyEntry tablesUnder getNextLevel
  split
  next => exact ih m _
  next => rfl

theorem destroyLoop_calls {m : Machine P} {level : Nat} (ih : ∀ (m : Machine P) (t : Nat),
      destroyPml m t 0 512 level = freeTables (tablesBelow m t 0 512 level) m) (pml : Nat)
    (is : List Nat) : is.foldl (destroyEntry pml level) m =
      freeTables (is.flatMap (tablesUnder m (fun t => tablesBelow m t 0 512 level) pml)) m := by
  induction is generalizing m with
  | nil => rw [List.foldl_nil, List.flatMap_nil, freeTables_nil]
  | cons i is ih' =>
    have hunder := (freeTables_same (tablesUnder m (fun t => tablesBelow m t 0 512 level) pml i)
      m).underAll level pml
    rw [List.foldl_cons, destroyEntry_calls ih, ih', hunder, List.flatMap_cons, freeTables_append]

/-- All that `destroy_pml` does is to give the pages of the tables back. -/
theorem destroyPml_calls (level : Nat) (m : Machine P) (pml start stop : Nat) :
    destroyPml m pml start stop level = freeTables (tablesBelow m pml start stop level) m := by
  induction level generalizing m pml start stop with
  | zero =>
    rw [destroyPml_zero, tablesBelow, freeTables_nil]
  | succ level ih =>
    rw [destroyPml_succ, tablesBelow, freeTables_append,
      destroyLoop_calls (fun m t => ih m t 0 512), freeTables_one]

theorem getNextLevel_nextTable (m : Machine P) (pml : Nat) (i : Fin 512) :
    (getNextLevel m pml i false).1 = nextTable m pml i := by
  unfold getNextLevel nextTable
  split
  next => rfl
  next => rfl

/-- What is gone through below the entry of a table lies on a walk that begins with it. -/
theorem mem_tablesUnder {m : Machine P} {pml level t : Nat} {i : Fin 512}
    (ih : ∀ pml, t ∈ tablesBelow m pml 0 512 level ↔
      ∃ xs, xs.length < level ∧ Ranged 0 512 xs ∧ walk (nextTable m) pml xs = some t) :
    t ∈ tablesUnder m (fun t => tablesBelow m t 0 512 level) pml i ↔
      ∃ xs, xs.length < level ∧ walk (nextTable m) pml (i :: xs) = some t := by
  rw [tablesUnder, getNextLevel_nextTable]
  simp only [walk]
  cases nextTable m pml i with
  | none =>
    refine ⟨fun h => absurd h List.not_mem_nil, fun h => ?_⟩
    obtain ⟨xs, -, hw⟩ := h
    cases hw
  | some next =>
    refine (ih next).trans ⟨fun h => ?_, fun h => ?_⟩
    · obtain ⟨xs, hx, -, hw⟩ := h
      exact ⟨xs, hx, hw⟩
    · obtain ⟨xs, hx, hw⟩ := h
      exact ⟨xs, hx, ranged_all xs, hw⟩

/-- The tables are those at the ends of the walks that are short enough. -/
theorem mem_tablesBelow {m : Machine P} (level : Nat) {pml start stop t : Nat}
    (hstop : stop ≤ 512) : t ∈ tablesBelow m pml start stop level ↔
      ∃ xs, xs.length < level ∧ Ranged start stop xs ∧ walk (nextTable m) pml xs = some t := by
  induction level generalizing pml start stop with
  | zero =>
    rw [tablesBelow]
    refine ⟨fun h => absurd h List.not_mem_nil, fun h => ?_⟩
    obtain ⟨xs, hx, -⟩ := h
    exact absurd hx (Nat.not_lt_zero _)
  | succ level ih =>
    rw [tablesBelow, List.mem_append, List.mem_singleton, List.mem_flatMap]
    constructor
    · intro h
      rcases h with ⟨i, hi, ht⟩ | rfl
      · obtain ⟨hle, hlt⟩ := List.mem_range'_1.mp hi
        have hin : i < 512 := by omega
        obtain ⟨xs, hx, hw⟩ :=
          (mem_tablesUnder (i := ⟨i, hin⟩) fun pml => ih (Nat.le_refl 512)).mp ht
        exact ⟨⟨i, hin⟩ :: xs, Nat.succ_lt_succ hx, ⟨hle, by simp only; omega⟩, hw⟩
      · exact ⟨[], Nat.succ_pos level, trivial, rfl⟩
    · intro h
      obtain ⟨xs, hx, hrange, hw⟩ := h
      cases xs with
      | nil => exact Or.inr (Option.some.inj hw).symm
      | cons i xs =>
        obtain ⟨hle, hlt⟩ := hrange
        refine Or.inl ⟨i, List.mem_range'_1.mpr ⟨hle, by omega⟩, ?_⟩
        exact (mem_tablesUnder fun pml => ih (Nat.le_refl 512)).mpr
          ⟨xs, Nat.lt_of_succ_lt_succ hx, hw⟩

/-- No table is reached on two ways. -/
def Separate (m : Machine P) (pml start stop level : Nat) : Prop :=
  ∀ xs ys t, xs.length < level → ys.length < level → Ranged start stop xs → Ranged start stop ys →
    walk (nextTable m) pml xs = some t → walk (nextTable m) pml ys = some t → xs = ys

section Separate

variable {m : Machine P} {pml start stop level : Nat}

theorem Separate.below (h : Separate m pml start stop (level + 1)) {i : Fin 512} {t : Nat}
    (hi : start ≤ (i : Nat) ∧ (i : Nat) < stop) (ht : nextTable m pml i = some t) :
    Separate m t 0 512 level := by
  intro xs ys u hx hy _ _ hwx hwy
  have hsame := h (i :: xs) (i :: ys) u (Nat.succ_lt_succ hx) (Nat.succ_lt_succ hy) hi hi
    (by rw [walk, ht]; exact hwx) (by rw [walk, ht]; exact hwy)
  exact (List.cons.inj hsame).2

theorem tablesUnder_nodup (h : Separate m pml start stop (level + 1)) {i : Fin 512}
    (hi : start ≤ (i : Nat) ∧ (i : Nat) < stop)
    (ih : ∀ t, Separate m t 0 512 level → (tablesBelow m t 0 512 level).Nodup) :
    (tablesUnder m (fun t => tablesBelow m t 0 512 level) pml i).Nodup := by
  rw [tablesUnder, getNextLevel_nextTable]
  cases ht : nextTable m pml i with
  | none => exact List.nodup_nil
  | some t => exact ih t (h.below hi ht)

/-- The walk to a table below the entry of an index. -/
theorem walk_of_tablesUnder (hstop : stop ≤ 512) {i t : Nat}
    (hi : i ∈ List.range' start (stop - start))
    (ht : t ∈ tablesUnder m (fun t => tablesBelow m t 0 512 level) pml i) :
    ∃ j : Fin 512, (j : Nat) = i ∧ (start ≤ (j : Nat) ∧ (j : Nat) < stop) ∧
      ∃ xs, xs.length < level ∧ walk (nextTable m) pml (j :: xs) = some t := by
  obtain ⟨hle, hlt⟩ := List.mem_range'_1.mp hi
  have hin : i < 512 := by omega
  refine ⟨⟨i, hin⟩, rfl, ⟨hle, by simp only; omega⟩, ?_⟩
  exact (mem_tablesUnder (i := ⟨i, hin⟩) fun pml => mem_tablesBelow level (Nat.le_refl 512)).mp ht

theorem tablesUnder_disjoint (hstop : stop ≤ 512) (h : Separate m pml start stop (level + 1))
    {i j : Nat} (hi : i ∈ List.range' start (stop - start))
    (hj : j ∈ List.range' start (stop - start)) (hne : i ≠ j) :
    List.Disjoint (tablesUnder m (fun t => tablesBelow m t 0 512 level) pml i)
      (tablesUnder m (fun t => tablesBelow m t 0 512 level) pml j) := by
  intro t hti htj
  obtain ⟨i', rfl, hri, xs, hx, hwx⟩ := walk_of_tablesUnder hstop hi hti
  obtain ⟨j', rfl, hrj, ys, hy, hwy⟩ := walk_of_tablesUnder hstop hj htj
  have hsame := h (i' :: xs) (j' :: ys) t (Nat.succ_lt_succ hx) (Nat.succ_lt_succ hy) hri hrj
    hwx hwy
  exact hne (congrArg Fin.val (List.cons.inj hsame).1)

end Separate

theorem tablesBelow_nodup {m : Machine P} (level : Nat) {pml start stop : Nat}
    (hstop : stop ≤ 512) (h : Separate m pml start stop level) :
    (tablesBelow m pml start stop level).Nodup := by
  induction level generalizing pml start stop with
  | zero =>
    rw [tablesBelow]
    exact List.nodup_nil
  | succ level ih =>
    rw [tablesBelow, List.nodup_append, List.nodup_flatMap]
    refine ⟨⟨fun i hi => ?_, ?_⟩, List.nodup_singleton pml, fun t ht u hu htu => ?_⟩
    · obtain ⟨hle, hlt⟩ := List.mem_range'_1.mp hi
      have hin : i < 512 := by omega
      exact tablesUnder_nodup (i := ⟨i, hin⟩) h ⟨hle, by simp only; omega⟩
        fun t => ih (Nat.le_refl 512)
    · have hrange : (List.range' start (stop - start)).Nodup := List.nodup_range'
      exact List.Nodup.pairwise_of_forall_ne hrange fun i hi j hj hne =>
        tablesUnder_disjoint hstop h hi hj hne
    · -- the table itself is at the end of the empty walk, what is below it is not
      obtain ⟨i, hi, ht⟩ := List.mem_flatMap.mp ht
      obtain ⟨j, -, hj, xs, hx, hw⟩ := walk_of_tablesUnder hstop hi ht
      rw [htu, List.mem_singleton.mp hu] at hw
      cases h (j :: xs) [] pml (Nat.succ_lt_succ hx) (Nat.succ_pos level) hj trivial hw rfl

/-- The lower-half tables of a space are distinct pages. -/
structure LowerTree (m : Machine P) (root : Nat) : Prop where
  page : ∃ page, root = m.pageAt page
  distinct : ∀ xs ys t, xs.length ≤ 3 → ys.length ≤ 3 → OwnPath xs → OwnPath ys →
    walk (nextTable m) root xs = some t → walk (nextTable m) root ys = some t → xs = ys

theorem LowerTree.separate {m : Machine P} {root : Nat} (h : LowerTree m root) :
    Separate m root 0 256 4 := by
  intro xs ys t hx hy hrx hry
  exact h.distinct xs ys t (Nat.lt_succ_iff.mp hx) (Nat.lt_succ_iff.mp hy)
    ((ownPath_iff_ranged xs).mpr hrx) ((ownPath_iff_ranged ys).mpr hry)

theorem pteGetAddr_aligned (value : BitVec 64) : pageSize ∣ (pteGetAddr value).toNat := by
  have hmask : (0x000ffffffffff000#64).toNat % 2 ^ 12 = 0 := by decide
  apply Nat.dvd_of_mod_eq_zero
  rw [show pageSize = 2 ^ 12 from rfl, pteGetAddr, BitVec.toNat_and, Nat.and_mod_two_pow, hmask,
    Nat.and_zero]

theorem nextTable_page {m : Machine P} {t u : Nat} {i : Fin 512} (h : nextTable m t i = some u) :
    ∃ page, u = m.pageAt page := by
  unfold nextTable at h
  split at h
  next =>
    obtain ⟨page, hpage⟩ := pteGetAddr_aligned (entry m t i)
    refine ⟨page, ?_⟩
    rw [← Option.some.inj h, Machine.physToVirt, hpage, Machine.pageAt, Nat.mul_comm]
  next => cases h

/-- Every table stands at the address of a page. -/
theorem walk_page {m : Machine P} {root t : Nat} {xs : List (Fin 512)}
    (hroot : ∃ page, root = m.pageAt page) (hw : walk (nextTable m) root xs = some t) :
    ∃ page, t = m.pageAt page := by
  induction xs generalizing root with
  | nil => exact (Option.some.inj hw) ▸ hroot
  | cons i xs ih =>
    obtain ⟨next, hnext, hw⟩ := Option.bind_eq_some_iff.mp hw
    exact ih (nextTable_page hnext) hw

/-- The calls of `free` so far. -/
def freeCalls (m : Machine P.logged) : List (Nat × Nat) := m.pmm.2

theorem freeCalls_freeTables (ts : List Nat) (m : Machine P.logged) :
    freeCalls (freeTables ts m) = freeCalls m ++ ts.map fun t => (m.virtToPhys t, 1) := by
  induction ts generalizing m with
  | nil => rw [freeTables_nil, List.map_nil, List.append_nil]
  | cons t ts ih =>
    have hcall : freeCalls (m.free (m.virtToPhys t) 1) = freeCalls m ++ [(m.virtToPhys t, 1)] := rfl
    have hphys : (m.free (m.virtToPhys t) 1).virtToPhys = m.virtToPhys := rfl
    rw [show t :: ts = [t] ++ ts from rfl, freeTables_append, freeTables_one, ih, hcall, hphys,
      List.append_assoc, List.map_append]
    rfl

/-- The machine with an empty record. -/
def logged (m : Machine P) : Machine P.logged := ⟨m.mem, (m.pmm, []), m.hhdm, m.refused⟩

theorem Tables.lowerTree {m : Machine P} {root : Nat} (h : Tables m root) : LowerTree m root := by
  obtain ⟨page, hpage, -⟩ := h.owned [] root (Nat.zero_le 3) rfl
  exact ⟨⟨page, hpage⟩, fun xs ys t hx hy _ _ hwx hwy => h.distinct xs ys t hx hy hwx hwy⟩

theorem mem_destroyed {m : Machine P} {root page : Nat} :
    m.pageAt page ∈ tablesBelow m root 0 256 4 ↔ Own m root page := by
  rw [mem_tablesBelow 4 (by omega), Own]
  simp only [ownPath_iff_ranged, Nat.lt_succ_iff]

theorem destroy_freeCalls (m : Machine P) (space : AddressSpace) :
    freeCalls (space.destroy (logged m)) =
      (tablesBelow m space.pml4 0 256 4).map fun t => (m.virtToPhys t, 1) := by
  have hsame : SameMemory m (logged m) := ⟨rfl, rfl⟩
  have hphys : (logged m).virtToPhys = m.virtToPhys := rfl
  have hnone : freeCalls (logged m) = [] := rfl
  rw [AddressSpace.destroy, destroyPml_calls, freeCalls_freeTables, hsame.tables, hphys, hnone,
    List.nil_append]

/-- The destructor gives back each table that is reached through the lower half once, and no
other page. -/
theorem destroy_frees_tables {m : Machine P} {space : AddressSpace}
    (h : LowerTree m space.pml4) : (freeCalls (space.destroy (logged m))).Nodup ∧
      (∀ call, call ∈ freeCalls (space.destroy (logged m)) ↔
        ∃ page, Own m space.pml4 page ∧ call = (page * pageSize, 1)) ∧
      ∀ page pages, ¬Own m space.pml4 page →
        (page * pageSize, pages) ∉ freeCalls (space.destroy (logged m)) := by
  have hpage : ∀ t ∈ tablesBelow m space.pml4 0 256 4, ∃ page, t = m.pageAt page := by
    intro t ht
    obtain ⟨xs, -, -, hw⟩ := (mem_tablesBelow 4 (by omega)).mp ht
    exact walk_page h.page hw
  have hphys : ∀ page, m.virtToPhys (m.pageAt page) = page * pageSize := fun page =>
    Nat.add_sub_cancel _ _
  have hcall : ∀ call, call ∈ freeCalls (space.destroy (logged m)) ↔
      ∃ page, Own m space.pml4 page ∧ call = (page * pageSize, 1) := by
    intro call
    rw [destroy_freeCalls, List.mem_map]
    constructor
    · intro hmem
      obtain ⟨t, ht, rfl⟩ := hmem
      obtain ⟨page, rfl⟩ := hpage t ht
      exact ⟨page, mem_destroyed.mp ht, by rw [hphys]⟩
    · intro hmem
      obtain ⟨page, hown, rfl⟩ := hmem
      exact ⟨m.pageAt page, mem_destroyed.mpr hown, by rw [hphys]⟩
  refine ⟨?_, hcall, fun page pages hown hmem => ?_⟩
  · rw [destroy_freeCalls]
    refine (tablesBelow_nodup 4 (by omega) h.separate).map_on ?_
    intro t ht u hu heq
    obtain ⟨page, rfl⟩ := hpage t ht
    obtain ⟨page', rfl⟩ := hpage u hu
    rw [hphys, hphys] at heq
    rw [Nat.eq_of_mul_eq_mul_right (by decide) (Prod.mk.inj heq).1]
  · obtain ⟨page', hown', heq⟩ := (hcall _).mp hmem
    rw [Nat.eq_of_mul_eq_mul_right (by decide) (Prod.mk.inj heq).1] at hown
    exact hown hown'

/-- The space of one mapped page. -/
def onePageMachine : Machine (Pmm.source 8 bootPmm_limit) :=
  bootSpace.map bootMachine 0x400000 0x5000 7#64

theorem onePage_frees_tables : (freeCalls (bootSpace.destroy (logged onePageMachine))).Nodup ∧
    (∀ call, call ∈ freeCalls (bootSpace.destroy (logged onePageMachine)) ↔
      ∃ page, Own onePageMachine bootSpace.pml4 page ∧ call = (page * pageSize, 1)) ∧
    ∀ page pages, ¬Own onePageMachine bootSpace.pml4 page →
      (page * pageSize, pages) ∉ freeCalls (bootSpace.destroy (logged onePageMachine)) :=
  destroy_frees_tables
    (map_keeps_pte bootMachine_ok bootMachine_tables 0x400000 0x5000 7#64).1.tables.lowerTree

end Vmm

end UmbraOS
