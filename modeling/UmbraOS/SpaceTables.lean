import UmbraOS.AddressSpaces
import UmbraOS.VmmMap

namespace UmbraOS

namespace Vmm

variable {P : PageSource pageSize}

/-- Every table of a space lies in a page that the allocator may be given back. -/
def Inside (m : Machine P) (root : Nat) : Prop :=
  ∀ xs page, xs.length ≤ 3 → walk (nextTable m) root xs = some (m.pageAt page) →
    0 < page ∧ page < P.bound

/-- What a call on a space does to the tables below its top-level table. -/
structure Worked (root : Nat) (m m' : Machine P) : Prop where
  keeps : Keeps root m m'
  edges : ∀ i t, nextTable m root i = some t → nextTable m' root i = some t
  inside : Inside m root → Inside m' root

theorem walk_one (m : Machine P) (root : Nat) (i : Fin 512) :
    walk (nextTable m) root [i] = nextTable m root i := by
  rw [walk]
  cases nextTable m root i with
  | none => rfl
  | some t => rfl

theorem getNextLevel_inside {m : Machine P} {root t : Nat} (hm : m.Ok) (ht : Tables m root)
    (hi : Inside m root) {xs : List (Fin 512)} (hx : xs.length ≤ 2)
    (hw : walk (nextTable m) root xs = some t) (i : Fin 512) :
    Inside (getNextLevel m t i true).2 root := by
  obtain ⟨tp, rfl, -⟩ := ht.owned xs t (by omega) hw
  by_cases hp : entry m (m.pageAt tp) i &&& ptePresent ≠ 0#64
  · rw [getNextLevel, if_pos hp]
    exact hi
  · have hn : nextTable m (m.pageAt tp) i = none := by rw [nextTable, if_neg hp]
    have hc := Machine.calloc_spec hm Nat.one_pos
    rw [getNextLevel_absent hp]
    generalize m.calloc 1 = r at hc ⊢
    cases hc with
    | refused pmm ok used =>
      rw [linkTable_refused]
      exact hi
    | run page pmm ok positive inside fresh used =>
      have hf : ¬m.Used page := fresh page (le_refl _) (by omega)
      have ha := linked_addsLeaf pmm hm ht hx hw hn (by omega) hf
      rw [linkTable_run m pmm _ i positive]
      intro ys q hy hwy
      rcases ha.walk_cases ht.distinct (show ys.length ≤ 3 + 1 by omega) with he | ⟨-, he⟩
      · exact hi ys q hy (he ▸ hwy)
      · have hq : q = page := pageAt_inj (Option.some.inj (hwy.symm.trans he))
        subst hq
        exact ⟨positive, by omega⟩

theorem virtToPte_inside {m : Machine P} {root : Nat} (hm : m.Ok) (ht : Tables m root)
    (hi : Inside m root) (v : Nat) : Inside (virtToPte m root v).2 root := by
  have h4 : Reaches root m [offset v 39] (getNextLevel m root (pml4Offset v) true) :=
    getNextLevel_reaches hm ht (show [].length ≤ 2 by simp) rfl (offset v 39)
  have hi4 : Inside (getNextLevel m root (pml4Offset v) true).2 root :=
    getNextLevel_inside hm ht hi (show [].length ≤ 2 by simp) rfl (offset v 39)
  rw [virtToPte]
  generalize getNextLevel m root (pml4Offset v) true = r4 at h4 hi4 ⊢
  rcases r4 with ⟨_ | pml3, m4⟩
  · exact hi4
  have h3 : Reaches root m [offset v 39, offset v 30] (getNextLevel m4 pml3 (pml3Offset v) true) :=
    h4.next (show [offset v 39].length ≤ 2 by simp) (offset v 30)
  have hi3 : Inside (getNextLevel m4 pml3 (pml3Offset v) true).2 root :=
    getNextLevel_inside h4.grows.ok h4.grows.tables hi4 (show [offset v 39].length ≤ 2 by simp)
      (h4.found pml3 rfl) (offset v 30)
  rw [ifNull_some]
  generalize getNextLevel m4 pml3 (pml3Offset v) true = r3 at h3 hi3 ⊢
  rcases r3 with ⟨_ | pml2, m3⟩
  · exact hi3
  have hi2 : Inside (getNextLevel m3 pml2 (pml2Offset v) true).2 root :=
    getNextLevel_inside h3.grows.ok h3.grows.tables hi3
      (show [offset v 39, offset v 30].length ≤ 2 by simp) (h3.found pml2 rfl) (offset v 21)
  rw [ifNull_some]
  generalize getNextLevel m3 pml2 (pml2Offset v) true = r2 at hi2 ⊢
  rcases r2 with ⟨_ | pml1, m2⟩
  · exact hi2
  · exact hi2

theorem virtToPte_worked {m : Machine P} {root : Nat} (hm : m.Ok) (ht : Tables m root) (v : Nat) :
    Worked root m (virtToPte m root v).2 := by
  have hinside := fun hi => virtToPte_inside hm ht hi v
  obtain ⟨⟨r, m'⟩, hr, heq⟩ := virtToPte_reaches hm ht v
  rw [heq] at hinside ⊢
  refine ⟨hr.grows.keeps_others, fun i t h => ?_, hinside⟩
  have hone := hr.grows.keeps [i] t (by simp) ((walk_one m root i).trans h)
  exact (walk_one m' root i).symm.trans hone

theorem stored_worked {m : Machine P} {root tp : Nat} (hm : m.Ok) (ht : Tables m root)
    {xs : List (Fin 512)} (hx : xs.length = 3)
    (hw : walk (nextTable m) root xs = some (m.pageAt tp)) (i : Fin 512) (e : BitVec 64) :
    Worked root m (stored m (m.pageAt tp) i e) := by
  refine ⟨stored_keeps hm ht hx hw i e, fun j t h => ?_, fun hi ys q hy hwy => ?_⟩
  · rw [← walk_one, stored_walk ht hx hw i e (by simp), walk_one]
    exact h
  · rw [stored_walk ht hx hw i e hy] at hwy
    exact hi ys q hy hwy

theorem Worked.trans {root : Nat} {m m' m'' : Machine P} (h : Worked root m m')
    (h' : Worked root m' m'') : Worked root m m'' :=
  ⟨h.keeps.trans h'.keeps, fun i t ht => h'.edges i t (h.edges i t ht),
    fun hi => h'.inside (h.inside hi)⟩

theorem map_worked {m : Machine P} {space : AddressSpace} (hm : m.Ok) (ht : Tables m space.pml4)
    (v p : Nat) (flags : BitVec 64) : Worked space.pml4 m (space.map m v p flags) := by
  have hwork := virtToPte_worked hm ht v
  obtain ⟨⟨r, m'⟩, hr, heq⟩ := virtToPte_reaches hm ht v
  rw [AddressSpace.map]
  rw [heq] at hwork ⊢
  cases r with
  | none => exact hwork
  | some t =>
    have hg : Grows space.pml4 m m' := hr.grows
    have hw : walk (nextTable m') space.pml4 (tablePath v) = some t := hr.found t rfl
    obtain ⟨tp, rfl, -⟩ := hg.tables.owned _ t (by simp [tablePath]) hw
    rw [Option.map_some] at hwork ⊢
    rw [ifNull_some]
    split
    next => exact hwork
    next => exact hwork.trans (stored_worked hg.ok hg.tables rfl hw (offset v 12) _)

theorem virtToPhys_worked {m : Machine P} {space : AddressSpace} (hm : m.Ok)
    (ht : Tables m space.pml4) (v : Nat) : Worked space.pml4 m (space.virtToPhys m v).2 := by
  have hwork := virtToPte_worked hm ht v
  rw [AddressSpace.virtToPhys]
  generalize virtToPte m space.pml4 v = r at hwork ⊢
  rcases r with ⟨_ | pte, m'⟩
  · exact hwork
  · rw [ifNull_some]
    split
    next => exact hwork
    next => exact hwork

/-- A space whose tables keep their bytes keeps its walks. -/
theorem walk_kept {m m' : Machine P} {root : Nat} (hh : m'.hhdm = m.hhdm) (ht : Tables m root)
    {xs : List (Fin 512)} (hx : xs.length ≤ 3)
    (hb : ∀ zs page, zs <+: xs → walk (nextTable m) root zs = some (m.pageAt page) →
      ∀ x < pageSize, m'.mem (m.pageAt page + x) = m.mem (m.pageAt page + x)) :
    walk (nextTable m') root xs = walk (nextTable m) root xs := by
  apply walk_congr
  intro zs j hz q hq
  have hlen := hz.length_le
  rw [List.length_append, List.length_singleton] at hlen
  obtain ⟨page, rfl, -⟩ := ht.owned zs q (by omega) hq
  have hprefix : zs <+: xs := (List.prefix_append zs [j]).trans hz
  exact nextTable_congr hh (entry_congr (hb zs page hprefix hq) j)

end Vmm

end UmbraOS
