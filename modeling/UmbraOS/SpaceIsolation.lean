import UmbraOS.Runs
import UmbraOS.SpaceDestroy

namespace UmbraOS

namespace Spaces

open Vmm

variable {P : PageSource pageSize}

/-- The tables of the spaces that are alive: a tree each, all with the higher half of the
kernel's, which is complete, and with no other table in common. -/
structure Forest (s : Spaces P) : Prop where
  ok : s.machine.Ok
  tables : ∀ id a, s.live id = some a → Tables s.machine a.pml4
  inside : ∀ id a, s.live id = some a → Inside s.machine a.pml4
  upper : Upper s.machine s.kernelSpace.pml4
  split : ∀ i a j b, s.live i = some a → s.live j = some b → i ≠ j →
    Split s.machine a.pml4 b.pml4

/-- All spaces that are alive translate the addresses of the higher half alike. -/
def SameKernel (s : Spaces P) : Prop :=
  ∀ i a j b, s.live i = some a → s.live j = some b → ∀ w, ¬LowerHalf w →
    (a.virtToPhys s.machine w).1 = (b.virtToPhys s.machine w).1

/-- The spaces that are not operated on stay alive and keep their translations of the lower
half. -/
def KeepsOthers (s t : Spaces P) (on : Option Nat → Prop) : Prop :=
  ∀ i a, s.live i = some a → ¬on i → t.live i = some a ∧ ∀ w, LowerHalf w →
    (a.virtToPhys t.machine w).1 = (a.virtToPhys s.machine w).1

/-- A call keeps the spaces that it is not an operation on. -/
def OthersKept (s : Spaces P) (c : Call) : Prop := KeepsOthers s (s.step c) c.on

/-- There is a free page for the top-level table of a new space. -/
def Served (s : Spaces P) (c : Call) : Prop :=
  c = .newSpace → ∃ page, page < P.bound ∧ ¬s.machine.Used page

namespace Forest

variable {s : Spaces P}

theorem shared (h : Forest s) {i j : Option Nat} {a b : AddressSpace} (ha : s.live i = some a)
    (hb : s.live j = some b) (k : Fin 512) (hk : 256 ≤ (k : Nat)) :
    nextTable s.machine a.pml4 k = nextTable s.machine b.pml4 k := by
  by_cases hij : i = j
  · rw [hij, hb] at ha
    cases ha
    rfl
  · exact (h.split i a j b ha hb hij).shared k hk

theorem upper_live (h : Forest s) {i : Option Nat} {a : AddressSpace} (ha : s.live i = some a) :
    Upper s.machine a.pml4 := by
  intro k hk
  have hkernel : s.live none = some s.kernelSpace := rfl
  rw [h.shared ha hkernel k hk]
  exact h.upper k hk

/-- The entries of the higher half are the same words. -/
theorem pte_upper (h : Forest s) {i j : Option Nat} {a b : AddressSpace}
    (ha : s.live i = some a) (hb : s.live j = some b) {w : Nat} (hw : ¬LowerHalf w) :
    pte s.machine a.pml4 w = pte s.machine b.pml4 w := by
  have hedge := h.shared ha hb (offset w 39) (upper_offset hw)
  have hwalk : walk (nextTable s.machine) a.pml4 (tablePath w) =
      walk (nextTable s.machine) b.pml4 (tablePath w) := walk_shared hedge _
  rw [pte, pte, leafEntry, leafEntry, hwalk]

theorem sameKernel (h : Forest s) : SameKernel s := by
  intro i a j b ha hb w hw
  rw [virtToPhys_eq h.ok (h.tables i a ha), virtToPhys_eq h.ok (h.tables j b hb),
    h.pte_upper ha hb hw]

theorem beside (h : Forest s) {i j : Option Nat} {a b : AddressSpace} {m' : Machine P}
    (ha : s.live i = some a) (hb : s.live j = some b) (hij : i ≠ j)
    (hw : Worked a.pml4 s.machine m') : Beside a.pml4 b.pml4 s.machine m' :=
  ⟨hw, h.tables j b hb, h.split i a j b ha hb hij, h.upper_live ha⟩

/-- A call on one space that only works on its tables. -/
theorem worked (h : Forest s) {i : Option Nat} {a : AddressSpace} {m' : Machine P}
    (ha : s.live i = some a) (hw : Worked a.pml4 s.machine m') :
    Forest { s with machine := m' } := by
  have hupper : Upper m' a.pml4 := by
    intro k hk
    obtain ⟨t, ht⟩ := Option.ne_none_iff_exists'.mp (h.upper_live ha k hk)
    rw [hw.edges k t ht]
    exact Option.some_ne_none t
  refine ⟨hw.keeps.ok, fun j b hb => ?_, fun j b hb => ?_, ?_, fun j b k c hb hc hjk => ?_⟩
  · by_cases hij : i = j
    · have he : some a = some b := ha.symm.trans (hij ▸ hb)
      cases he
      exact hw.keeps.tables
    · exact (h.beside ha hb hij hw).tables_after
  · by_cases hij : i = j
    · have he : some a = some b := ha.symm.trans (hij ▸ hb)
      cases he
      exact hw.inside (h.inside i a ha)
    · exact (h.beside ha hb hij hw).inside_after (h.inside i a ha) (h.inside j b hb)
  · by_cases hi : i = none
    · rw [hi] at ha
      cases ha
      exact hupper
    · intro k hk
      have hb := h.beside ha (show s.live none = some s.kernelSpace from rfl) hi hw
      rw [show Spaces.kernelSpace { s with machine := m' } = s.kernelSpace from rfl, ← hb.shared k hk]
      exact hupper k hk
  · by_cases hij : i = j
    · have he : some a = some b := ha.symm.trans (hij ▸ hb)
      cases he
      exact (h.beside ha hc (hij ▸ hjk) hw).split_after
    · by_cases hik : i = k
      · have he : some a = some c := ha.symm.trans (hik ▸ hc)
        cases he
        exact (h.beside ha hb hij hw).split_after.symm
      · have hbb := h.beside ha hb hij hw
        have hbc := h.beside ha hc hik hw
        have hsplit := h.split j b k c hb hc hjk
        refine ⟨fun q hq => ?_, fun page hp hp' => ?_⟩
        · rw [hbb.edge, hbc.edge]
          exact hsplit.shared q hq
        · exact hsplit.apart page (hbb.own_before hp) (hbc.own_before hp')

/-- The entries of a space decide its translations. -/
theorem virtToPhys_congr {t : Spaces P} (h : Forest s) (h' : Forest t) {i : Option Nat}
    {a : AddressSpace} (ha : s.live i = some a) (ha' : t.live i = some a) {w : Nat}
    (hw : pte t.machine a.pml4 w = pte s.machine a.pml4 w) :
    (a.virtToPhys t.machine w).1 = (a.virtToPhys s.machine w).1 := by
  rw [virtToPhys_eq h'.ok (h'.tables i a ha'), virtToPhys_eq h.ok (h.tables i a ha), hw]

theorem worked_others (h : Forest s) {id : Option Nat} {a : AddressSpace} {m' : Machine P}
    (ha : s.live id = some a) (hw : Worked a.pml4 s.machine m') :
    KeepsOthers s { s with machine := m' } fun i => i = id := by
  intro i b hb hi
  have hb' : Spaces.live { s with machine := m' } i = some b := hb
  exact ⟨hb', fun w hl => h.virtToPhys_congr (h.worked ha hw) hb hb'
    ((h.beside ha hb (Ne.symm hi) hw).pte_lower hl)⟩

theorem live_alloc {a b : AddressSpace} {i : Option Nat} {m' : Machine P}
    (hb : Spaces.live ⟨m', s.kernelSpace, s.others.alloc a⟩ i = some b) :
    i = some s.others.next ∧ b = a ∨ i ≠ some s.others.next ∧ s.live i = some b := by
  cases i with
  | none => exact Or.inr ⟨Option.some_ne_none _ ∘ Eq.symm, hb⟩
  | some id =>
    have hcell : (s.others.alloc a).cell id = some b := hb
    rw [CellStore.alloc_cell] at hcell
    by_cases hid : id = s.others.next
    · rw [if_pos hid] at hcell
      exact Or.inl ⟨congrArg some hid, (Option.some.inj hcell).symm⟩
    · rw [if_neg hid] at hcell
      exact Or.inr ⟨fun h => hid (Option.some.inj h), hcell⟩

/-- A new space is created in a fresh page. -/
theorem created (h : Forest s) {a : AddressSpace} {page : Nat} {m' : Machine P}
    (ha : a.pml4 = s.machine.pageAt page)
    (hc : Created s.machine s.kernelSpace.pml4 page m') :
    Forest ⟨m', s.kernelSpace, s.others.alloc a⟩ := by
  have hkernel : s.live none = some s.kernelSpace := rfl
  have hkt := h.tables none _ hkernel
  have hold : ∀ i b, s.live i = some b → SameTree b.pml4 s.machine m' :=
    fun i b hb => hc.sameTree (h.tables i b hb)
  have hnew : ∀ i b, s.live i = some b → Split m' a.pml4 b.pml4 := by
    intro i b hb
    rw [ha]
    exact hc.split_new hkt (h.tables i b hb) (h.shared hkernel hb)
  refine ⟨hc.ok, fun i b hb => ?_, fun i b hb => ?_, fun k hk => ?_,
    fun i b j c hb hc' hij => ?_⟩
  · rcases live_alloc hb with ⟨-, rfl⟩ | ⟨-, hb'⟩
    · rw [ha]
      exact hc.tables_new hkt
    · exact hc.tables_old (h.tables i b hb')
  · rcases live_alloc hb with ⟨-, rfl⟩ | ⟨-, hb'⟩
    · rw [ha]
      exact hc.inside_new hkt (h.inside none _ hkernel)
    · exact (hold i b hb').inside (h.inside i b hb')
  · have hedge : nextTable m' s.kernelSpace.pml4 k = nextTable s.machine s.kernelSpace.pml4 k :=
      (hold none _ hkernel).edge k
    exact fun hnone => h.upper k hk (hedge.symm.trans hnone)
  · rcases live_alloc hb with ⟨hi, rfl⟩ | ⟨hi, hb'⟩
    · rcases live_alloc hc' with ⟨hj, -⟩ | ⟨-, hc''⟩
      · exact absurd (hi.trans hj.symm) hij
      · exact hnew j c hc''
    · rcases live_alloc hc' with ⟨-, rfl⟩ | ⟨-, hc''⟩
      · exact (hnew i b hb').symm
      · exact split_kept (hold i b hb') (hold j c hc'') (h.split i b j c hb' hc'' hij)

theorem created_others (h : Forest s) {a : AddressSpace} {page : Nat} {m' : Machine P}
    (ha : a.pml4 = s.machine.pageAt page)
    (hc : Created s.machine s.kernelSpace.pml4 page m') (on : Option Nat → Prop) :
    KeepsOthers s ⟨m', s.kernelSpace, s.others.alloc a⟩ on := by
  intro i b hb _
  have hb' : Spaces.live ⟨m', s.kernelSpace, s.others.alloc a⟩ i = some b := by
    cases i with
    | none => exact hb
    | some id => exact CellStore.alloc_cell_of_live _ hb
  exact ⟨hb', fun w _ => h.virtToPhys_congr (h.created ha hc) hb hb'
    (pte_of_bytes hc.hhdm (h.tables i b hb) hc.keeps_bytes w)⟩

theorem live_erase {id : Nat} {i : Option Nat} {b : AddressSpace} {m' : Machine P}
    (hb : Spaces.live ⟨m', s.kernelSpace, s.others.erase id⟩ i = some b) :
    i ≠ some id ∧ s.live i = some b := by
  cases i with
  | none => exact ⟨Option.some_ne_none _ ∘ Eq.symm, hb⟩
  | some j =>
    have hcell : (s.others.erase id).cell j = some b := hb
    rw [CellStore.erase_cell] at hcell
    by_cases hj : j = id
    · rw [if_pos hj] at hcell
      cases hcell
    · rw [if_neg hj] at hcell
      exact ⟨fun h => hj (Option.some.inj h), hcell⟩

theorem sameTree_of_frees {m m' : Machine P} {pages : Nat → Prop} (h : Frees m m' pages)
    (root : Nat) : SameTree root m m' := by
  refine ⟨h.hhdm, fun xs _ => ?_⟩
  rw [h.nextTable]

/-- A table of another space is none of a space's own. -/
theorem not_own (h : Forest s) {i j : Option Nat} {a b : AddressSpace}
    (ha : s.live i = some a) (hb : s.live j = some b) (hij : i ≠ j) {xs : List (Fin 512)}
    {page : Nat} (hx : xs.length ≤ 3)
    (hw : walk (nextTable s.machine) b.pml4 xs = some (s.machine.pageAt page)) :
    ¬Own s.machine a.pml4 page := fun hown =>
  hown.notTable (h.tables i a ha) (h.split j b i a hb ha (Ne.symm hij)) xs hx hw

/-- A space gives its own tables back. -/
theorem destroyed (h : Forest s) {id : Nat} {a : AddressSpace} {m' : Machine P}
    (ha : s.live (some id) = some a) (hf : Frees s.machine m' (Own s.machine a.pml4)) :
    Forest ⟨m', s.kernelSpace, s.others.erase id⟩ := by
  have hold : ∀ root, SameTree root s.machine m' := sameTree_of_frees hf
  refine ⟨hf.ok, fun i b hb => ?_, fun i b hb => ?_, fun k hk => ?_,
    fun i b j c hb hc hij => ?_⟩
  · obtain ⟨hi, hb'⟩ := live_erase hb
    refine (hold _).tables (h.tables i b hb') fun xs page hx hw => ?_
    have hused := (h.tables i b hb').used_of_walk hx hw
    exact (hf.used page).mpr ⟨hused, h.not_own ha hb' (Ne.symm hi) hx hw⟩
  · obtain ⟨-, hb'⟩ := live_erase hb
    exact (hold _).inside (h.inside i b hb')
  · have hedge : nextTable m' s.kernelSpace.pml4 k = nextTable s.machine s.kernelSpace.pml4 k :=
      (hold s.kernelSpace.pml4).edge k
    exact fun hnone => h.upper k hk (hedge.symm.trans hnone)
  · obtain ⟨-, hb'⟩ := live_erase hb
    obtain ⟨-, hc'⟩ := live_erase hc
    exact split_kept (hold _) (hold _) (h.split i b j c hb' hc' hij)

theorem destroyed_others (h : Forest s) {id : Nat} {a : AddressSpace} {m' : Machine P}
    (ha : s.live (some id) = some a) (hf : Frees s.machine m' (Own s.machine a.pml4)) :
    KeepsOthers s ⟨m', s.kernelSpace, s.others.erase id⟩ fun i => i = some id := by
  intro i b hb hi
  have hb' : Spaces.live ⟨m', s.kernelSpace, s.others.erase id⟩ i = some b := by
    cases i with
    | none => exact hb
    | some j => exact (CellStore.erase_cell_ne _ fun hj => hi (congrArg some hj)).trans hb
  have hbytes : ∀ q, s.machine.Used q → ∀ x < pageSize,
      m'.mem (s.machine.pageAt q + x) = s.machine.mem (s.machine.pageAt q + x) := by
    intro q _ x _
    rw [hf.mem]
  exact ⟨hb', fun w _ => h.virtToPhys_congr (h.destroyed ha hf) hb hb'
    (pte_of_bytes hf.hhdm (h.tables i b hb) hbytes w)⟩

end Forest

theorem keepsOthers_refl (s : Spaces P) (on : Option Nat → Prop) : KeepsOthers s s on :=
  fun _ _ ha _ => ⟨ha, fun _ _ => rfl⟩

theorem step_newSpace (s : Spaces P) : s.step .newSpace =
    ⟨(newSpace s.machine s.kernelSpace).2, s.kernelSpace,
      s.others.alloc (newSpace s.machine s.kernelSpace).1⟩ := by
  rw [step]

theorem step_map (s : Spaces P) (id : Option Nat) (v p : Nat) (flags : BitVec 64) :
    s.step (.map id v p flags) = match s.live id with
      | none => s
      | some a => { s with machine := a.map s.machine v p flags } := by
  cases hlive : s.live id with
  | none => simp only [step, hlive]
  | some a => simp only [step, hlive]

theorem step_virtToPhys (s : Spaces P) (id : Option Nat) (v : Nat) :
    s.step (.virtToPhys id v) = match s.live id with
      | none => s
      | some a => { s with machine := (a.virtToPhys s.machine v).2 } := by
  cases hlive : s.live id with
  | none => simp only [step, hlive]
  | some a => simp only [step, hlive]

theorem step_destroy (s : Spaces P) (id : Nat) :
    s.step (.destroy id) = match s.live (some id) with
      | none => s
      | some a => ⟨a.destroy s.machine, s.kernelSpace, s.others.erase id⟩ := by
  cases hcell : s.others.cell id with
  | none => simp only [step, live, hcell]
  | some a => simp only [step, live, hcell]

/-- One call keeps the tables in order and changes no other space's lower half. -/
theorem step_forest (hP : P.Complete) {s : Spaces P} (h : Forest s) {c : Call}
    (hc : Served s c) : Forest (s.step c) ∧ OthersKept s c := by
  unfold OthersKept
  cases c with
  | newSpace =>
    obtain ⟨page, hb, hf⟩ := hc rfl
    have hspec := newSpace_created h.ok (h.tables none _ rfl) (calloc_served hP h.ok hb hf)
    rw [step_newSpace]
    generalize newSpace s.machine s.kernelSpace = r at hspec ⊢
    obtain ⟨top, htop, hcreated⟩ := hspec
    exact ⟨h.created htop hcreated, h.created_others htop hcreated _⟩
  | map id v p flags =>
    rw [step_map]
    cases hid : s.live id with
    | none => exact ⟨h, keepsOthers_refl s _⟩
    | some a =>
      have hw := map_worked h.ok (h.tables id a hid) v p flags
      exact ⟨h.worked hid hw, h.worked_others hid hw⟩
  | virtToPhys id v =>
    rw [step_virtToPhys]
    cases hid : s.live id with
    | none => exact ⟨h, keepsOthers_refl s _⟩
    | some a =>
      have hw := virtToPhys_worked h.ok (h.tables id a hid) v
      exact ⟨h.worked hid hw, h.worked_others hid hw⟩
  | destroy id =>
    rw [step_destroy]
    cases hid : s.live (some id) with
    | none => exact ⟨h, keepsOthers_refl s _⟩
    | some a =>
      have hf := destroy_frees h.ok (h.tables _ a hid) (h.inside _ a hid)
      exact ⟨h.destroyed hid hf, h.destroyed_others hid hf⟩

end Spaces

end UmbraOS
