import UmbraOS.VmmSupply

namespace UmbraOS

namespace AddressSpace

variable {P : PageSource pageSize}

/-- A mapping is stored: there are tables for it, and its entry is not present yet. -/
def stores (space : AddressSpace) (m : Machine P) (x : Mapping) : Bool :=
  Vmm.ifNull (Vmm.virtToPte m space.pml4 x.virt) (fun _ => false) fun pte m =>
    decide (m.mem.load64 pte &&& ptePresent = 0#64)

/-- The mappings of a list that are stored, each as a last-level entry. -/
def installed (space : AddressSpace) : Machine P → List Mapping → List Mapping
  | _, [] => []
  | m, x :: maps =>
    if space.stores m x then x :: installed space (space.map m x.virt x.phys x.flags) maps
    else installed space (space.map m x.virt x.phys x.flags) maps

variable {space : AddressSpace}

theorem mapAll_append (m : Machine P) (xs ys : List Mapping) :
    space.mapAll m (xs ++ ys) = space.mapAll (space.mapAll m xs) ys := List.foldl_append

theorem mem_installed {m : Machine P} {maps : List Mapping} {x : Mapping} :
    x ∈ space.installed m maps ↔
      ∃ pre post, maps = pre ++ x :: post ∧ space.stores (space.mapAll m pre) x := by
  induction maps generalizing m with
  | nil =>
    constructor
    · intro h
      cases h
    · intro h
      obtain ⟨pre, post, heq, -⟩ := h
      exact absurd heq.symm (List.append_ne_nil_of_right_ne_nil pre (List.cons_ne_nil x post))
  | cons y maps ih =>
    have hhere : x ∈ space.installed m (y :: maps) ↔ space.stores m y ∧ x = y ∨
        x ∈ space.installed (space.map m y.virt y.phys y.flags) maps := by
      rw [installed]
      split
      next hy =>
        rw [List.mem_cons]
        exact or_congr_left (and_iff_right hy).symm
      next hy => exact ⟨Or.inr, fun h => h.resolve_left fun h' => hy h'.1⟩
    rw [hhere, ih]
    constructor
    · intro h
      rcases h with ⟨hy, rfl⟩ | ⟨pre, post, rfl, hx⟩
      · exact ⟨[], maps, rfl, hy⟩
      · exact ⟨y :: pre, post, rfl, hx⟩
    · intro h
      obtain ⟨pre, post, heq, hx⟩ := h
      cases hpre : pre with
      | nil =>
        rw [hpre] at heq hx
        cases heq
        exact Or.inl ⟨hx, rfl⟩
      | cons z zs =>
        rw [hpre] at heq hx
        cases heq
        exact Or.inr ⟨zs, post, rfl, hx⟩

theorem mem_of_installed {m : Machine P} {maps : List Mapping} {x : Mapping}
    (h : x ∈ space.installed m maps) : x ∈ maps := by
  obtain ⟨pre, post, rfl, -⟩ := mem_installed.mp h
  exact List.mem_append_right pre List.mem_cons_self

end AddressSpace

namespace Vmm

variable {P : PageSource pageSize} {space : AddressSpace}

theorem stores_iff_enters {m : Machine P} (hm : m.Ok) (ht : Tables m space.pml4) (x : Mapping) :
    space.stores m x ↔ Enters m space.pml4 x.virt := by
  obtain ⟨⟨r, m'⟩, hr, heq⟩ := virtToPte_reaches hm ht x.virt
  rw [AddressSpace.stores, Enters, heq]
  cases r with
  | none =>
    rw [Option.map_none, ifNull_none]
    exact ⟨fun h => (Bool.false_ne_true h).elim, fun h => absurd rfl h.1⟩
  | some t =>
    have hp : m'.mem.load64 (t + 8 * (offset x.virt 12 : Nat)) = pte m space.pml4 x.virt := by
      rw [← hr.grows.pte x.virt, pte, leafEntry_of_walk (hr.found t rfl), entry]
    rw [Option.map_some, ifNull_some, hp, decide_eq_true_iff]
    exact ⟨fun h => ⟨Option.some_ne_none _, h⟩, fun h => h.2⟩

/-- An entry that a list of mappings changes is one that it installs. -/
theorem mem_installed_of_changed {m : Machine P} (hm : m.Ok) (ht : Tables m space.pml4)
    {maps : List Mapping} (hpresent : ∀ x ∈ maps, x.flags &&& ptePresent ≠ 0#64) {w : Nat}
    (hw : pte (space.mapAll m maps) space.pml4 w ≠ pte m space.pml4 w) :
    ∃ x ∈ space.installed m maps, SamePage x.virt w ∧
      pte (space.mapAll m maps) space.pml4 w = x.entry := by
  induction maps generalizing m with
  | nil => exact absurd rfl hw
  | cons x maps ih =>
    obtain ⟨hk, henter, hskip⟩ := map_keeps_pte hm ht x.virt x.phys x.flags
    have hstores := stores_iff_enters hm ht x
    rw [AddressSpace.mapAll_cons] at hw ⊢
    by_cases he : Enters m space.pml4 x.virt ∧ SamePage x.virt w
    · have hentry := henter he.1 w
      rw [if_pos he.2] at hentry
      have hset : pte (space.map m x.virt x.phys x.flags) space.pml4 w &&& ptePresent ≠ 0#64 := by
        rw [hentry]
        exact present_or (hpresent x List.mem_cons_self)
      rw [mapAll_present hk.ok hk.tables hset maps, hentry, AddressSpace.installed,
        if_pos (hstores.mpr he.1)]
      exact ⟨x, List.mem_cons_self, he.2, rfl⟩
    · have hold : pte (space.map m x.virt x.phys x.flags) space.pml4 w = pte m space.pml4 w := by
        by_cases hent : Enters m space.pml4 x.virt
        · rw [henter hent w, if_neg fun hs => he ⟨hent, hs⟩]
        · exact hskip hent w
      rw [← hold] at hw
      obtain ⟨y, hy, hsame, hfinal⟩ :=
        ih hk.ok hk.tables (fun y hy => hpresent y (List.mem_cons_of_mem x hy)) hw
      refine ⟨y, ?_, hsame, hfinal⟩
      rw [AddressSpace.installed]
      split
      next => exact List.mem_cons_of_mem x hy
      next => exact hy

/-- An installed entry was not present before and is there afterwards. -/
theorem pte_of_installed {m : Machine P} (hm : m.Ok) (ht : Tables m space.pml4)
    {maps : List Mapping} (hpresent : ∀ x ∈ maps, x.flags &&& ptePresent ≠ 0#64) {x : Mapping}
    (hx : x ∈ space.installed m maps) : pte m space.pml4 x.virt &&& ptePresent = 0#64 ∧
      pte (space.mapAll m maps) space.pml4 x.virt = x.entry := by
  obtain ⟨pre, post, rfl, hstores⟩ := AddressSpace.mem_installed.mp hx
  have hpre := mapAll_keeps hm ht pre
  have henters := (stores_iff_enters hpre.ok hpre.tables x).mp hstores
  obtain ⟨hk, henter, -⟩ := map_keeps_pte hpre.ok hpre.tables x.virt x.phys x.flags
  have hentry := henter henters x.virt
  rw [if_pos (show SamePage x.virt x.virt from rfl)] at hentry
  have hset : pte (space.map (space.mapAll m pre) x.virt x.phys x.flags) space.pml4 x.virt &&&
      ptePresent ≠ 0#64 := by
    rw [hentry]
    exact present_or (hpresent x (List.mem_append_right pre List.mem_cons_self))
  refine ⟨?_, ?_⟩
  · by_contra hthere
    have hstays := mapAll_present hm ht hthere pre
    exact hthere (hstays ▸ henters.2)
  · rw [AddressSpace.mapAll_append, AddressSpace.mapAll_cons,
      mapAll_present hk.ok hk.tables hset post, hentry]
    rfl

/-- No later mapping for the page is stored: it is mapped, or there is no page left for its
tables. -/
def Settled (m : Machine P) (root w : Nat) : Prop :=
  pte m root w &&& ptePresent ≠ 0#64 ∨
    (supply m root).free = 0 ∧ tablePath w ∉ (supply m root).tables

theorem Settled.mapAll (hP : P.Complete) {m : Machine P} (hm : m.Ok) (ht : Tables m space.pml4)
    {w : Nat} (h : Settled m space.pml4 w) (maps : List Mapping) :
    Settled (space.mapAll m maps) space.pml4 w := by
  rcases h with hset | hnone
  · left
    rw [mapAll_present hm ht hset]
    exact hset
  · right
    rw [mapAll_supply hP hm ht, Supply.foldl_empty hnone.1]
    exact hnone

theorem settled_map (hP : P.Complete) {m : Machine P} (hm : m.Ok) (ht : Tables m space.pml4)
    {v p w : Nat} {flags : BitVec 64} (hpresent : flags &&& ptePresent ≠ 0#64)
    (hsame : SamePage v w) : Settled (space.map m v p flags) space.pml4 w := by
  obtain ⟨hk, henter, -⟩ := map_keeps_pte hm ht v p flags
  obtain ⟨hsupply, hwalk, hempty⟩ := map_supply hP hm ht v p flags
  have hpath : tablePath v = tablePath w := ((samePage_iff v w).mp hsame).1
  by_cases hgot : (virtToPte m space.pml4 v).1 = none
  · right
    have hmissing : tablePath v ∉ ((tablesOf v).foldl Supply.demand (supply m space.pml4)).tables :=
      fun hin => hwalk.mpr hin hgot
    rw [hsupply, ← hpath]
    exact ⟨hempty hmissing, hmissing⟩
  · left
    by_cases hv : pte m space.pml4 v &&& ptePresent = 0#64
    · rw [henter ⟨hgot, hv⟩ w, if_pos hsame]
      exact present_or hpresent
    · rw [hsame.pte] at hv
      rw [map_present hm ht hv]
      exact hv

/-- An installed mapping is the first of the list for its page. -/
theorem installed_first (hP : P.Complete) {m : Machine P} (hm : m.Ok) (ht : Tables m space.pml4)
    {pre : List Mapping} {x y : Mapping} (hy : y ∈ pre)
    (hpresent : y.flags &&& ptePresent ≠ 0#64)
    (hx : space.stores (space.mapAll m pre) x) : ¬SamePage y.virt x.virt := by
  intro hsame
  obtain ⟨xs, ys, rfl⟩ := List.append_of_mem hy
  have hxs := mapAll_keeps hm ht xs
  have hk := (map_keeps_pte hxs.ok hxs.tables y.virt y.phys y.flags).1
  have hys := mapAll_keeps hk.ok hk.tables ys
  have hsettled := (settled_map hP hxs.ok hxs.tables hpresent hsame).mapAll hP hk.ok hk.tables ys
  rw [AddressSpace.mapAll_append, AddressSpace.mapAll_cons] at hx
  obtain ⟨hwalk, hclear⟩ := (stores_iff_enters hys.ok hys.tables x).mp hx
  rcases hsettled with hset | ⟨hfree, hmissing⟩
  · exact hset hclear
  · have hin := (map_supply hP hys.ok hys.tables x.virt x.phys x.flags).2.1.mp hwalk
    rw [Supply.foldl_empty hfree] at hin
    exact hmissing hin

end Vmm

end UmbraOS
