import UmbraOS.PmmSource
import UmbraOS.VmmTranslate

namespace UmbraOS

namespace Vmm

variable {P : PageSource pageSize}

/-- What a mapping keeps: the tables stay a tree of used pages, and every other used page
keeps its bytes. -/
structure Keeps (root : Nat) (m m' : Machine P) : Prop where
  ok : m'.Ok
  tables : Tables m' root
  hhdm : m'.hhdm = m.hhdm
  used : ∀ page, m.Used page → m'.Used page
  others : ∀ page, m.Used page → NotTable m root page → NotTable m' root page ∧
    ∀ x < pageSize, m'.mem (m.pageAt page + x) = m.mem (m.pageAt page + x)
  refused : m.refused = true → m'.refused = true

theorem Grows.keeps_others {root : Nat} {m m' : Machine P} (h : Grows root m m') :
    Keeps root m m' :=
  ⟨h.ok, h.tables, h.hhdm, h.used, h.others, h.refused⟩

theorem Keeps.trans {root : Nat} {m m' m'' : Machine P} (h : Keeps root m m')
    (h' : Keeps root m' m'') : Keeps root m m'' where
  ok := h'.ok
  tables := h'.tables
  hhdm := h'.hhdm.trans h.hhdm
  used page hu := h'.used page (h.used page hu)
  others page hu hn := by
    obtain ⟨hn', hb⟩ := h.others page hu hn
    obtain ⟨hn'', hb'⟩ := h'.others page (h.used page hu) hn'
    refine ⟨hn'', fun x hx => ?_⟩
    rw [← hb x hx, ← pageAt_hhdm h.hhdm]
    exact hb' x hx
  refused hr := h'.refused (h.refused hr)

/-- The machine after a word is written to a table. -/
def stored (m : Machine P) (t : Nat) (i : Fin 512) (e : BitVec 64) : Machine P :=
  { m with mem := m.mem.store64 (t + 8 * i) e }

theorem stored_entry_self (m : Machine P) (t : Nat) (i : Fin 512) (e : BitVec 64) :
    entry (stored m t i e) t i = e :=
  Memory.load64_store64 _ _ _

theorem stored_entry_other (m : Machine P) {tp q : Nat} {i j : Fin 512} (e : BitVec 64)
    (h : ¬(q = tp ∧ j = i)) :
    entry (stored m (m.pageAt tp) i e) (m.pageAt q) j = entry m (m.pageAt q) j := by
  by_cases ht : q = tp
  · subst ht
    have hj : j ≠ i := fun hj => h ⟨rfl, hj⟩
    exact store_other_entry m q hj e
  · have hb : ∀ x < pageSize, (stored m (m.pageAt tp) i e).mem (m.pageAt q + x) =
        m.mem (m.pageAt q + x) := fun x hx => store_other_page m ht i e hx
    exact entry_congr hb j

/-- A word of a last-level table carries no edge of the tree. -/
theorem stored_walk {m : Machine P} {root tp : Nat} (ht : Tables m root) {xs : List (Fin 512)}
    (hx : xs.length = 3) (hw : walk (nextTable m) root xs = some (m.pageAt tp)) (i : Fin 512)
    (e : BitVec 64) {ys : List (Fin 512)} (hy : ys.length ≤ 3) :
    walk (nextTable (stored m (m.pageAt tp) i e)) root ys = walk (nextTable m) root ys := by
  apply walk_congr
  intro zs j hz q hq
  have hlen := hz.length_le
  simp only [List.length_append, List.length_singleton] at hlen
  obtain ⟨qp, rfl, _⟩ := ht.owned zs q (by omega) hq
  have hne : ¬(qp = tp ∧ j = i) := by
    rintro ⟨rfl, _⟩
    have := ht.distinct zs xs _ (by omega) (by omega) hq hw
    subst this
    omega
  have hh : (stored m (m.pageAt tp) i e).hhdm = m.hhdm := rfl
  exact nextTable_congr hh (stored_entry_other m e hne)

theorem stored_keeps {m : Machine P} {root tp : Nat} (hm : m.Ok) (ht : Tables m root)
    {xs : List (Fin 512)} (hx : xs.length = 3)
    (hw : walk (nextTable m) root xs = some (m.pageAt tp)) (i : Fin 512) (e : BitVec 64) :
    Keeps root m (stored m (m.pageAt tp) i e) := by
  refine ⟨⟨hm.pmm, hm.aligned, hm.window, hm.bound⟩, ⟨?_, ?_⟩, rfl, fun _ h => h, ?_, fun h => h⟩
  · intro ys zs q hy hz hwy hwz
    rw [stored_walk ht hx hw i e hy] at hwy
    rw [stored_walk ht hx hw i e hz] at hwz
    exact ht.distinct ys zs q hy hz hwy hwz
  · intro ys q hy hwy
    rw [stored_walk ht hx hw i e hy] at hwy
    exact ht.owned ys q hy hwy
  · intro q _ hn
    refine ⟨?_, ?_⟩
    · intro ys hy
      rw [stored_walk ht hx hw i e hy]
      exact hn ys hy
    · intro x hx'
      have hne : q ≠ tp := by
        rintro rfl
        exact hn xs (by omega) hw
      exact store_other_page m hne i e hx'

theorem stored_leafEntry {m : Machine P} {root tp : Nat} (ht : Tables m root)
    {xs : List (Fin 512)} (hx : xs.length = 3)
    (hw : walk (nextTable m) root xs = some (m.pageAt tp)) (i : Fin 512) (e : BitVec 64)
    {ys : List (Fin 512)} (hy : ys.length = 3) (j : Fin 512) :
    leafEntry (stored m (m.pageAt tp) i e) root ys j =
      if xs = ys ∧ i = j then e else leafEntry m root ys j := by
  have hs := stored_walk ht hx hw i e (Nat.le_of_eq hy)
  by_cases hp : xs = ys ∧ i = j
  · obtain ⟨rfl, rfl⟩ := hp
    rw [if_pos ⟨rfl, rfl⟩, leafEntry_of_walk (hs.trans hw), stored_entry_self]
  · rw [if_neg hp]
    cases hwy : walk (nextTable m) root ys with
    | none => rw [leafEntry_of_missing hwy, leafEntry_of_missing (hs.trans hwy)]
    | some q =>
      rw [leafEntry_of_walk hwy, leafEntry_of_walk (hs.trans hwy)]
      obtain ⟨qp, rfl, _⟩ := ht.owned ys q (Nat.le_of_eq hy) hwy
      apply stored_entry_other
      rintro ⟨rfl, rfl⟩
      exact hp ⟨ht.distinct xs ys _ (by omega) (by omega) hw hwy, rfl⟩

theorem stored_pte {m : Machine P} {root tp v : Nat} (ht : Tables m root)
    (hw : walk (nextTable m) root (tablePath v) = some (m.pageAt tp)) (e : BitVec 64) (w : Nat) :
    pte (stored m (m.pageAt tp) (offset v 12) e) root w =
      if SamePage v w then e else pte m root w := by
  rw [pte, stored_leafEntry ht rfl hw _ e rfl, pte]
  simp only [samePage_iff]

/-- A mapping is entered: no table allocation fails on the way and the page was not mapped. -/
def Enters (m : Machine P) (root v : Nat) : Prop :=
  (virtToPte m root v).1 ≠ none ∧ pte m root v &&& ptePresent = 0#64

theorem map_keeps_pte {m : Machine P} {space : AddressSpace} (hm : m.Ok)
    (ht : Tables m space.pml4) (v p : Nat) (flags : BitVec 64) :
    Keeps space.pml4 m (space.map m v p flags) ∧
    (Enters m space.pml4 v → ∀ w, pte (space.map m v p flags) space.pml4 w =
      if SamePage v w then BitVec.ofNat 64 p ||| flags else pte m space.pml4 w) ∧
    (¬Enters m space.pml4 v → ∀ w,
      pte (space.map m v p flags) space.pml4 w = pte m space.pml4 w) := by
  obtain ⟨⟨r, m'⟩, hr, heq⟩ := virtToPte_reaches hm ht v
  have hg : Grows space.pml4 m m' := hr.grows
  rw [Enters, AddressSpace.map, heq]
  cases r with
  | none =>
    rw [Option.map_none, ifNull_none]
    exact ⟨hg.keeps_others, fun h => absurd rfl h.1, fun _ w => hg.pte w⟩
  | some t =>
    have hw : walk (nextTable m') space.pml4 (tablePath v) = some t := hr.found t rfl
    obtain ⟨tp, rfl, _⟩ := hg.tables.owned _ t (by simp [tablePath]) hw
    have hp : m'.mem.load64 (m'.pageAt tp + 8 * (offset v 12 : Nat)) = pte m space.pml4 v := by
      rw [← hg.pte v, pte, leafEntry_of_walk hw, entry]
    rw [Option.map_some, ifNull_some, hp]
    split
    next hpresent =>
      exact ⟨hg.keeps_others, fun h => absurd h.2 hpresent, fun _ w => hg.pte w⟩
    next hpresent =>
      have hzero : pte m space.pml4 v &&& ptePresent = 0#64 := not_not.mp hpresent
      have hk := stored_keeps hg.ok hg.tables rfl hw (offset v 12) (BitVec.ofNat 64 p ||| flags)
      refine ⟨hg.keeps_others.trans hk, fun _ w => ?_, fun h => ?_⟩
      · rw [← hg.pte w]
        exact stored_pte hg.tables hw _ w
      · exact absurd ⟨Option.some_ne_none _, hzero⟩ h

/-- A walk that fails leaves its mark. -/
theorem map_refused {m : Machine P} {space : AddressSpace} (hm : m.Ok)
    (ht : Tables m space.pml4) {v p : Nat} {flags : BitVec 64}
    (h : (Vmm.virtToPte m space.pml4 v).1 = none) :
    (space.map m v p flags).refused = true := by
  obtain ⟨⟨r, m'⟩, hr, heq⟩ := virtToPte_reaches hm ht v
  rw [heq] at h
  cases r with
  | none =>
    rw [AddressSpace.map, heq, Option.map_none, ifNull_none]
    exact (hr.missing rfl).2
  | some t => cases h

/-- An address space whose only table has no present entry. -/
theorem Tables.of_empty {m : Machine P} {page : Nat} (hu : m.Used page)
    (h : ∀ i, nextTable m (m.pageAt page) i = none) : Tables m (m.pageAt page) := by
  have hnil : ∀ xs t, walk (nextTable m) (m.pageAt page) xs = some t → xs = [] ∧ t = m.pageAt page := by
    intro xs t hw
    cases xs with
    | nil => exact ⟨rfl, (Option.some.inj hw).symm⟩
    | cons i xs =>
      rw [walk, h i] at hw
      cases hw
  refine ⟨?_, ?_⟩
  · intro xs ys p _ _ hx hy
    rw [(hnil xs p hx).1, (hnil ys p hy).1]
  · intro xs t _ hw
    exact ⟨page, (hnil xs t hw).2, hu⟩

/-- Mapping a page translates exactly that page to the frame, and changes no other
translation; a page that is mapped, or a missing table that the allocator does not serve, leaves
every translation as it was. -/
def MapsPage (space : AddressSpace) (m : Machine P) (v p : Nat) (flags : BitVec 64) : Prop :=
  ((space.virtToPhys m v).1 = BitVec.allOnes 64 → TablesServed m space.pml4 v →
    ∀ w, SamePage v w → (space.virtToPhys (space.map m v p flags) w).1 = BitVec.ofNat 64 p) ∧
  ((space.virtToPhys m v).1 ≠ BitVec.allOnes 64 ∨ ¬TablesServed m space.pml4 v →
    ∀ w, (space.virtToPhys (space.map m v p flags) w).1 = (space.virtToPhys m w).1) ∧
  ∀ w, ¬SamePage v w →
    (space.virtToPhys (space.map m v p flags) w).1 = (space.virtToPhys m w).1

theorem map_mapsPage {m : Machine P} {space : AddressSpace} (hm : m.Ok)
    (ht : Tables m space.pml4) {v p : Nat} {flags : BitVec 64} (hp : p % 2 ^ 12 = 0)
    (hp52 : p < 2 ^ 52) (hpresent : flags &&& ptePresent ≠ 0#64)
    (haddr : pteGetAddr flags = 0#64) : MapsPage space m v p flags := by
  obtain ⟨hk, henter, hskip⟩ := map_keeps_pte hm ht v p flags
  have hserved := virtToPte_served hm ht v
  have hbefore := virtToPhys_eq hm ht
  have hafter := virtToPhys_eq hk.ok hk.tables
  have hpage : p = p / 2 ^ 12 * pageSize := by
    simp only [pageSize]
    omega
  refine ⟨?_, ?_, ?_⟩
  · intro hun hok w hw
    rw [hbefore, translation_allOnes] at hun
    rw [hafter, henter ⟨hserved.mpr hok, hun⟩ w, if_pos hw, translation, if_neg (present_or hpresent), hpage]
    exact pteGetAddr_entry (by omega) haddr
  · intro hcase w
    have hne : ¬Enters m space.pml4 v := by
      rintro ⟨hok, hun⟩
      rcases hcase with hm | hn
      · exact hm ((hbefore v).trans (translation_allOnes.mpr hun))
      · exact hn (hserved.mp hok)
    rw [hafter, hbefore, hskip hne w]
  · intro w hw
    rw [hafter, hbefore]
    by_cases he : Enters m space.pml4 v
    · rw [henter he w, if_neg hw]
    · rw [hskip he w]

/-- A bitmap of 8 bytes in which the first two pages are taken. -/
def bootPmm : Pmm := ⟨⟨fun i => if i = 0 then 3#8 else 0#8, 8⟩, 0, []⟩

theorem bootPmm_limit : u64 (8 * pageSize) ≤ 2 ^ 52 :=
  Nat.le_trans (u64_le _) (by simp [pageSize])

/-- Zeroed memory under the direct map, with page 1 for the top-level table. -/
def bootMachine : Machine (Pmm.source 8 bootPmm_limit) :=
  ⟨fun _ => 0#8, bootPmm, 0xffff800000000000, false⟩

def bootSpace : AddressSpace := ⟨bootMachine.pageAt 1⟩

theorem bootMachine_ok : bootMachine.Ok where
  pmm := ⟨rfl, by decide, by decide⟩
  aligned := by decide
  window := by decide
  bound := by decide

theorem bootMachine_edges (i : Fin 512) : nextTable bootMachine bootSpace.pml4 i = none := by
  have hzero : ∀ a, bootMachine.mem.load64 a = 0#64 := by
    intro a
    simp [bootMachine, Memory.load64]
  rw [nextTable, entry, hzero, if_neg (by decide)]

theorem bootMachine_tables : Tables bootMachine bootSpace.pml4 :=
  Tables.of_empty (show bootPmm.bitmap.get 1 = true by decide) bootMachine_edges

/-- The three tables of an address are all missing at first, and there are pages for them. -/
theorem bootMachine_served (v : Nat) : TablesServed bootMachine bootSpace.pml4 v := by
  rw [TablesServed, missingEdges_bare bootMachine_edges]
  show (Pmm.source 8 bootPmm_limit).Serves 3 bootPmm
  refine ⟨?_, ?_, ?_, trivial⟩ <;> decide

theorem bootSpace_mapsPage : TablesServed bootMachine bootSpace.pml4 0x400000 ∧
    MapsPage bootSpace bootMachine 0x400000 0x5000 7#64 :=
  ⟨bootMachine_served _,
    map_mapsPage bootMachine_ok bootMachine_tables (by decide) (by decide) (by decide) (by decide)⟩

end Vmm

end UmbraOS
