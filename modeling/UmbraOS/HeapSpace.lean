import UmbraOS.HeapHistory
import UmbraOS.SpaceSteps
import UmbraOS.VmmRange

namespace UmbraOS

namespace Vmm

open Machine (KeepsPage)
open Heap (Allocation Layout Grown)

variable {P : PageSource pageSize}

/-- The heap and the tables of a space lie in different pages. -/
structure Sound (classes : List Nat) (h : Heap P) (root : Nat) (live : List Allocation)
    (L : Layout) : Prop where
  heap : Heap.Inv classes h live L
  tables : Tables h.machine root
  apart : ∀ i o, L.owner i = some o → NotTable h.machine root i

/-- A used page that is neither the heap's nor a table of the space. -/
structure Aside (m : Machine P) (root : Nat) (L : Layout) (i : Nat) : Prop where
  used : m.Used i
  owner : L.owner i = none
  table : NotTable m root i

/-- The pages that lie aside keep their bytes, and lie aside afterwards. -/
structure Spares (root : Nat) (m : Machine P) (L : Layout) (m' : Machine P) (L' : Layout) :
    Prop where
  hhdm : m'.hhdm = m.hhdm
  aside : ∀ i, Aside m root L i → Aside m' root L' i ∧ KeepsPage m m' i

variable {root : Nat} {m m' : Machine P} {L L' : Layout}

theorem Spares.trans {m'' : Machine P} {L'' : Layout} (h : Spares root m L m' L')
    (h' : Spares root m' L' m'' L'') : Spares root m L m'' L'' := by
  refine ⟨h'.hhdm.trans h.hhdm, fun i hi => ?_⟩
  obtain ⟨hi', hkeep⟩ := h.aside i hi
  obtain ⟨hi'', hkeep'⟩ := h'.aside i hi'
  exact ⟨hi'', hkeep.trans hkeep' h.hhdm⟩

theorem SameTree.notTable (h : SameTree root m m') {i : Nat} :
    NotTable m' root i ↔ NotTable m root i := by
  unfold NotTable
  rw [pageAt_hhdm h.hhdm]
  exact forall_congr' fun xs => forall_congr' fun hx => by rw [h.walks xs hx]

variable {classes : List Nat} {h h' : Heap P} {live live' : List Allocation}

theorem Sound.tableOwner (hs : Sound classes h root live L) {xs : List (Fin 512)} {i : Nat}
    (hx : xs.length ≤ 3) (hw : walk (nextTable h.machine) root xs = some (h.machine.pageAt i)) :
    L.owner i = none := by
  cases ho : L.owner i with
  | none => rfl
  | some o => exact absurd hw (hs.apart i o ho xs hx)

/-- What changes the pages that lie aside only, and may take more pages. -/
theorem Sound.frame (hs : Sound classes h root live L) (hok : m.Ok)
    (hhdm : m.hhdm = h.machine.hhdm) (hused : ∀ i, h.machine.Used i → m.Used i)
    (hkeep : ∀ i, h.machine.Used i → ¬Aside h.machine root L i → KeepsPage h.machine m i) :
    Sound classes ⟨m, h.slabs⟩ root live L ∧ SameTree root h.machine m ∧
      ∀ w, pte m root w = pte h.machine root w := by
  have htables : ∀ xs page, xs.length ≤ 3 →
      walk (nextTable h.machine) root xs = some (h.machine.pageAt page) →
      KeepsPage h.machine m page := fun xs page hx hw =>
    hkeep page (hs.tables.used_of_walk hx hw) fun ha => ha.table xs hx hw
  have hsame := sameTree_of_tables hhdm hs.tables htables
  refine ⟨⟨hs.heap.frame hok hhdm hused fun i o ho => ?_, ?_, fun i o ho => ?_⟩, hsame,
    pte_of_tables hhdm hs.tables htables⟩
  · refine hkeep i (hs.heap.owned i o ho) fun ha => ?_
    rw [ha.owner] at ho
    cases ho
  · exact hsame.tables hs.tables fun xs page hx hw => hused page (hs.tables.used_of_walk hx hw)
  · exact hsame.notTable.mpr (hs.apart i o ho)

/-- A run of fresh pages that lies aside, and is zero. -/
structure Provided (root : Nat) (m : Machine P) (L : Layout) (n page : Nat) (r : Nat × Machine P) :
    Prop where
  addr : r.1 = page * pageSize
  inside : page + n ≤ P.bound
  granted : r.2.refused = m.refused
  fresh : ∀ i, page ≤ i → i < page + n → ¬m.Used i
  spares : Spares root m L r.2 L
  aside : ∀ i, page ≤ i → i < page + n → Aside r.2 root L i
  zero : ∀ x < n * pageSize, r.2.mem (m.pageAt page + x) = 0#8
  entries : ∀ w, pte r.2 root w = pte m root w

theorem Sound.calloc (hs : Sound classes h root live L) {n : Nat}
    (hr : (h.machine.calloc n).1 ≠ 0) :
    Sound classes ⟨(h.machine.calloc n).2, h.slabs⟩ root live L ∧
      ∃ page, Provided root h.machine L n page (h.machine.calloc n) := by
  have hm := hs.heap.ok
  have hn : 0 < n := by
    rcases Nat.eq_zero_or_pos n with rfl | hpos
    · exact absurd rfl hr
    · exact hpos
  have hc := Machine.calloc_spec hm hn
  generalize h.machine.calloc n = r at hc hr ⊢
  cases hc with
  | refused pmm ok used => exact absurd rfl hr
  | run page pmm ok positive inside fresh used =>
    have hout : ∀ i, h.machine.Used i → ¬(page ≤ i ∧ i < page + n) :=
      fun i hu hin => fresh i hin.1 hin.2 hu
    have hkeep : ∀ i, h.machine.Used i → KeepsPage h.machine
        ⟨h.machine.mem.fill (h.machine.pageAt page) (n * pageSize) 0#8, pmm, h.machine.hhdm,
          h.machine.refused⟩ i := by
      intro i hu x hx
      have hno := hout i hu
      refine Memory.fill_outside _ _ ?_
      unfold Machine.pageAt pageSize at *
      omega
    have hok : Machine.Ok ⟨h.machine.mem.fill (h.machine.pageAt page) (n * pageSize) 0#8, pmm,
      h.machine.hhdm, h.machine.refused⟩ := ⟨ok, hm.aligned, hm.window, hm.bound⟩
    obtain ⟨hsound, hsame, hpte⟩ := hs.frame hok rfl (fun i hu => (used i).mpr (Or.inl hu))
      fun i hu _ => hkeep i hu
    refine ⟨hsound, page, rfl, inside, rfl, fresh,
      ⟨rfl, fun i ha => ⟨⟨?_, ha.owner, ?_⟩, hkeep i ha.used⟩⟩,
      fun i hle hlt => ⟨(used i).mpr (Or.inr ⟨hle, hlt⟩), ?_, ?_⟩, fun x hx => ?_, hpte⟩
    · exact (used i).mpr (Or.inl ha.used)
    · exact hsame.notTable.mpr ha.table
    · exact hs.heap.fresh_owner (fresh i hle hlt)
    · refine hsame.notTable.mpr fun xs hx hw => ?_
      exact fresh i hle hlt (hs.tables.used_of_walk hx hw)
    · exact Memory.fill_inside _ _ (Nat.le_add_right _ _) (by omega)

theorem Sound.mapAll {space : AddressSpace} (hs : Sound classes h space.pml4 live L)
    (maps : List Mapping) :
    Sound classes ⟨space.mapAll h.machine maps, h.slabs⟩ space.pml4 live L ∧
      Spares space.pml4 h.machine L (space.mapAll h.machine maps) L := by
  have hk := mapAll_keeps hs.heap.ok hs.tables maps
  refine ⟨⟨hs.heap.frame hk.ok hk.hhdm hk.used fun i o ho => ?_, hk.tables, fun i o ho => ?_⟩,
    hk.hhdm, fun i ha => ?_⟩
  · exact (hk.others i (hs.heap.owned i o ho) (hs.apart i o ho)).2
  · exact (hk.others i (hs.heap.owned i o ho) (hs.apart i o ho)).1
  · obtain ⟨htable, hkeep⟩ := hk.others i ha.used ha.table
    exact ⟨⟨hk.used i ha.used, ha.owner, htable⟩, hkeep⟩

/-- Bytes are written to pages that lie aside. -/
theorem Sound.fillAside (hs : Sound classes h root live L) {mem : Memory}
    (hkeep : ∀ i, h.machine.Used i → ¬Aside h.machine root L i →
      KeepsPage h.machine { h.machine with mem := mem } i) :
    Sound classes ⟨{ h.machine with mem := mem }, h.slabs⟩ root live L ∧
      (∀ i, Aside h.machine root L i → Aside { h.machine with mem := mem } root L i) ∧
      ∀ w, pte { h.machine with mem := mem } root w = pte h.machine root w := by
  have hm := hs.heap.ok
  have hok : Machine.Ok { h.machine with mem := mem } :=
    ⟨hm.pmm, hm.aligned, hm.window, hm.bound⟩
  obtain ⟨hsound, hsame, hpte⟩ := hs.frame hok rfl (fun _ hu => hu) hkeep
  exact ⟨hsound, fun i ha => ⟨ha.used, ha.owner, hsame.notTable.mpr ha.table⟩, hpte⟩

/-- The heap works on its own pages and takes fresh ones. -/
theorem Sound.grown (hs : Sound classes h root live L) {classes' : List Nat}
    (hi : Heap.Inv classes' h' live' L') (hg : Grown h L h' L') :
    Sound classes' h' root live' L' ∧ Spares root h.machine L h'.machine L' ∧
      ∀ w, pte h'.machine root w = pte h.machine root w := by
  have htables : ∀ xs page, xs.length ≤ 3 →
      walk (nextTable h.machine) root xs = some (h.machine.pageAt page) →
      KeepsPage h.machine h'.machine page := fun xs page hx hw =>
    (hg.foreign page (hs.tables.used_of_walk hx hw) (hs.tableOwner hx hw)).2
  have hsame := sameTree_of_tables hg.hhdm hs.tables htables
  refine ⟨⟨hi, ?_, fun i o ho => ?_⟩, ⟨hg.hhdm, fun i ha => ?_⟩,
    pte_of_tables hg.hhdm hs.tables htables⟩
  · exact hsame.tables hs.tables fun xs page hx hw =>
      hg.used page (hs.tables.used_of_walk hx hw)
  · refine hsame.notTable.mpr fun xs hx hw => ?_
    have hnone := (hg.foreign i (hs.tables.used_of_walk hx hw) (hs.tableOwner hx hw)).1
    rw [ho] at hnone
    cases hnone
  · obtain ⟨howner, hkeep⟩ := hg.foreign i ha.used ha.owner
    exact ⟨⟨hg.used i ha.used, howner, hsame.notTable.mpr ha.table⟩, hkeep⟩

/-- `init` makes the heap beside a space that is there already. -/
theorem Sound.init (hm : m.Ok) (ht : Tables m root)
    (hr : (Heap.init m).machine.refused = false) :
    (∃ L, Sound Slab.sizes (Heap.init m) root [] L) ∧
      ∀ w, pte (Heap.init m).machine root w = pte m root w := by
  obtain ⟨L, hi, hg⟩ := Heap.Inv.init_grown hm hr
  have hstart : Sound [] ⟨m, fun _ => 0⟩ root [] Layout.none :=
    ⟨Heap.Inv.start hm, ht, fun i o ho => by cases ho⟩
  obtain ⟨hsound, -, hpte⟩ := hstart.grown hi hg
  exact ⟨⟨L, hsound⟩, hpte⟩

/-- A client of the heap writes to its own bytes. -/
theorem Sound.writes (hs : Sound classes h root live L) {b : Allocation} {mem : Memory}
    (hb : b ∈ live) (hmem : ∀ x, ¬b.Covers x → mem x = h.machine.mem x) :
    Sound classes ⟨{ h.machine with mem := mem }, h.slabs⟩ root live L ∧
      Spares root h.machine L { h.machine with mem := mem } L ∧
      ∀ w, pte { h.machine with mem := mem } root w = pte h.machine root w := by
  have hforeign : ∀ i, L.owner i = none →
      KeepsPage h.machine { h.machine with mem := mem } i := by
    intro i ho x hx
    refine hmem _ fun hc => ?_
    obtain ⟨j, hj, hlow, hhigh⟩ := hs.heap.inPage hb hc
    have hij : j = i := by
      unfold Machine.pageAt pageSize at *
      omega
    subst hij
    cases hj with
    | slab _ _ owner =>
      rw [ho] at owner
      cases owner
    | run _ owner =>
      rw [ho] at owner
      cases owner
  exact hs.grown (hs.heap.writes hb hmem)
    ⟨rfl, fun _ hu => hu, fun i _ ho => ⟨ho, hforeign i ho⟩⟩

end Vmm

end UmbraOS
