import UmbraOS.SpaceSteps

namespace UmbraOS

namespace Vmm

variable {P : PageSource pageSize}

/-- Pages are given back and nothing else happens. -/
structure Frees (m m' : Machine P) (pages : Nat → Prop) : Prop where
  mem : m'.mem = m.mem
  hhdm : m'.hhdm = m.hhdm
  ok : m'.Ok
  used : ∀ i, m'.Used i ↔ m.Used i ∧ ¬pages i

namespace Frees

variable {m m' m'' : Machine P} {pages more : Nat → Prop}

theorem nothing (hm : m.Ok) (h : ∀ i, ¬pages i) : Frees m m pages :=
  ⟨rfl, rfl, hm, fun i => ⟨fun hu => ⟨hu, h i⟩, fun hu => hu.1⟩⟩

theorem trans (h : Frees m m' pages) (h' : Frees m' m'' more) :
    Frees m m'' fun i => pages i ∨ more i := by
  refine ⟨h'.mem.trans h.mem, h'.hhdm.trans h.hhdm, h'.ok, fun i => ?_⟩
  rw [h'.used, h.used, not_or, and_assoc]

theorem congr (h : Frees m m' pages) (hp : ∀ i, more i ↔ pages i) : Frees m m' more :=
  ⟨h.mem, h.hhdm, h.ok, fun i => by rw [h.used, hp i]⟩

theorem pageAt (h : Frees m m' pages) : m'.pageAt = m.pageAt := funext (pageAt_hhdm h.hhdm)

theorem entry (h : Frees m m' pages) (t i : Nat) : Vmm.entry m' t i = Vmm.entry m t i := by
  rw [Vmm.entry, Vmm.entry, h.mem]

theorem nextTable (h : Frees m m' pages) : Vmm.nextTable m' = Vmm.nextTable m := by
  funext t i
  exact nextTable_congr h.hhdm (h.entry t i)

end Frees

/-- The turn of the loop of `destroy_pml` for one entry. -/
def destroyEntry (pml level : Nat) (m : Machine P) (i : Nat) : Machine P :=
  ifNull (getNextLevel m pml i false) id fun nextPml m => destroyPml m nextPml 0 512 level

theorem destroyPml_zero (m : Machine P) (pml start stop : Nat) :
    destroyPml m pml start stop 0 = m := by
  rw [destroyPml]

theorem destroyPml_succ (m : Machine P) (pml start stop level : Nat) :
    destroyPml m pml start stop (level + 1) =
      (((List.range' start (stop - start)).foldl (destroyEntry pml level) m).free
        (((List.range' start (stop - start)).foldl (destroyEntry pml level) m).virtToPhys pml)
        1) := by
  rw [destroyPml]
  rfl

theorem destroyEntry_eq (m : Machine P) (pml level : Nat) (i : Fin 512) :
    destroyEntry pml level m i = match nextTable m pml i with
      | none => m
      | some t => destroyPml m t 0 512 level := by
  rw [destroyEntry, getNextLevel, nextTable]
  by_cases hp : entry m pml i &&& ptePresent ≠ 0#64
  · rw [if_pos hp, if_pos hp]
    rfl
  · rw [if_neg hp, if_neg hp]
    rfl

/-- The paths that begin with an entry from `start` up to `stop`. -/
def Ranged (start stop : Nat) : List (Fin 512) → Prop
  | [] => True
  | i :: _ => start ≤ (i : Nat) ∧ (i : Nat) < stop

/-- The tables that `destroy_pml` reaches. -/
def Reached (m : Machine P) (pml start stop level page : Nat) : Prop :=
  ∃ xs, xs.length < level ∧ Ranged start stop xs ∧
    walk (nextTable m) pml xs = some (m.pageAt page)

/-- The tables that `destroy_pml` reaches can be given back. -/
def Returnable (m : Machine P) (pml start stop level : Nat) : Prop :=
  ∀ xs t, xs.length < level → Ranged start stop xs → walk (nextTable m) pml xs = some t →
    ∃ page, t = m.pageAt page ∧ 0 < page ∧ page < P.bound

theorem ranged_all (xs : List (Fin 512)) : Ranged 0 512 xs := by
  cases xs with
  | nil => trivial
  | cons i xs => exact ⟨Nat.zero_le _, i.isLt⟩

/-- The walks into the lower half begin below entry 256 of the top-level table. -/
theorem ownPath_iff_ranged (xs : List (Fin 512)) : OwnPath xs ↔ Ranged 0 256 xs := by
  cases xs with
  | nil => exact Iff.rfl
  | cons i xs => exact ⟨fun h => ⟨Nat.zero_le _, h⟩, fun h => h.2⟩

theorem Returnable.below {m : Machine P} {pml start stop level t : Nat} {i : Fin 512}
    (h : Returnable m pml start stop (level + 1)) (hi : start ≤ (i : Nat) ∧ (i : Nat) < stop)
    (ht : nextTable m pml i = some t) : Returnable m t 0 512 level := by
  intro xs u hx _ hw
  refine h (i :: xs) u (Nat.succ_lt_succ hx) hi ?_
  rw [walk, ht]
  exact hw

theorem reached_cons {m : Machine P} {pml level page t : Nat} {i : Fin 512}
    (ht : nextTable m pml i = some t) : Reached m t 0 512 level page ↔
      ∃ xs, xs.length < level ∧ walk (nextTable m) pml (i :: xs) = some (m.pageAt page) := by
  rw [Reached]
  simp only [walk, ht, Option.bind_some]
  constructor
  · intro h
    obtain ⟨xs, hx, -, hw⟩ := h
    exact ⟨xs, hx, hw⟩
  · intro h
    obtain ⟨xs, hx, hw⟩ := h
    exact ⟨xs, hx, ranged_all xs, hw⟩

theorem Frees.returnable {m m' : Machine P} {pages : Nat → Prop} (h : Frees m m' pages)
    {pml start stop level : Nat} (hr : Returnable m pml start stop level) :
    Returnable m' pml start stop level := by
  unfold Returnable
  rw [h.nextTable, h.pageAt]
  exact hr

theorem Frees.reached {m m' : Machine P} {pages : Nat → Prop} (h : Frees m m' pages)
    (pml start stop level page : Nat) :
    Reached m' pml start stop level page ↔ Reached m pml start stop level page := by
  unfold Reached
  rw [h.nextTable, h.pageAt]

/-- The tables below the first `k` entries from `start` on. -/
def ReachedBelow (m : Machine P) (pml start k level page : Nat) : Prop :=
  ∃ (i : Fin 512) (xs : List (Fin 512)), start ≤ (i : Nat) ∧ (i : Nat) < start + k ∧
    xs.length < level ∧ walk (nextTable m) pml (i :: xs) = some (m.pageAt page)

/-- One turn of the loop gives the tables below its entry back. -/
theorem destroyEntry_frees {m m' : Machine P} {pml start stop k level : Nat}
    (ih : ∀ (m : Machine P) (t : Nat), m.Ok → Returnable m t 0 512 level →
      Frees m (destroyPml m t 0 512 level) (Reached m t 0 512 level))
    (hr : Returnable m pml start stop (level + 1)) (hk : start + k < stop) (hstop : stop ≤ 512)
    (h : Frees m m' (ReachedBelow m pml start k level)) :
    Frees m (destroyEntry pml level m' (start + k)) (ReachedBelow m pml start (k + 1) level) := by
  obtain ⟨i, hi⟩ : ∃ i : Fin 512, (i : Nat) = start + k := ⟨⟨start + k, by omega⟩, rfl⟩
  have hsplit : ∀ page, ReachedBelow m pml start (k + 1) level page ↔
      ReachedBelow m pml start k level page ∨
        ∃ xs, xs.length < level ∧ walk (nextTable m) pml (i :: xs) = some (m.pageAt page) := by
    intro page
    constructor
    · intro hpage
      obtain ⟨j, xs, hle, hlt, hx, hw⟩ := hpage
      by_cases hj : (j : Nat) < start + k
      · exact Or.inl ⟨j, xs, hle, hj, hx, hw⟩
      · have hji : j = i := Fin.ext (by omega)
        rw [hji] at hw
        exact Or.inr ⟨xs, hx, hw⟩
    · intro hpage
      rcases hpage with ⟨j, xs, hle, hlt, hx, hw⟩ | ⟨xs, hx, hw⟩
      · exact ⟨j, xs, hle, by omega, hx, hw⟩
      · exact ⟨i, xs, by omega, by omega, hx, hw⟩
  rw [← hi, destroyEntry_eq, h.nextTable]
  cases ht : nextTable m pml i with
  | none =>
    refine h.congr fun page => ?_
    rw [hsplit page]
    refine or_iff_left fun hpage => ?_
    obtain ⟨xs, -, hw⟩ := hpage
    rw [walk, ht] at hw
    cases hw
  | some t =>
    have hreturn := hr.below (by omega) ht
    have hnext := ih m' t h.ok (h.returnable hreturn)
    refine (h.trans hnext).congr fun page => ?_
    rw [hsplit page, h.reached, reached_cons ht]

theorem destroyLoop_frees {m : Machine P} {pml start stop k level : Nat} (hm : m.Ok)
    (ih : ∀ (m : Machine P) (t : Nat), m.Ok → Returnable m t 0 512 level →
      Frees m (destroyPml m t 0 512 level) (Reached m t 0 512 level))
    (hr : Returnable m pml start stop (level + 1)) (hk : start + k ≤ stop) (hstop : stop ≤ 512) :
    Frees m ((List.range' start k).foldl (destroyEntry pml level) m)
      (ReachedBelow m pml start k level) := by
  induction k with
  | zero =>
    rw [List.range'_zero, List.foldl_nil]
    refine Frees.nothing hm fun page hpage => ?_
    obtain ⟨i, xs, hle, hlt, -⟩ := hpage
    exact Nat.not_lt.mpr hle hlt
  | succ k ih' =>
    rw [List.range'_concat, List.foldl_append, Nat.one_mul, List.foldl_cons, List.foldl_nil]
    exact destroyEntry_frees ih hr (by omega) hstop (ih' (by omega))

/-- The pages of all tables that are reached are given back, the last one first. -/
theorem destroyPml_frees (level : Nat) {m : Machine P} {pml start stop : Nat} (hm : m.Ok)
    (hstop : stop ≤ 512) (hle : start ≤ stop) (hr : Returnable m pml start stop level) :
    Frees m (destroyPml m pml start stop level) (Reached m pml start stop level) := by
  induction level generalizing m pml start stop with
  | zero =>
    rw [destroyPml_zero]
    refine Frees.nothing hm fun page hpage => ?_
    obtain ⟨xs, hx, -⟩ := hpage
    exact Nat.not_lt_zero _ hx
  | succ level ih =>
    have hloop := destroyLoop_frees (k := stop - start) hm
      (fun m t hm ht => ih hm (Nat.le_refl 512) (Nat.zero_le 512) ht) hr (by omega) hstop
    obtain ⟨top, hpml, hpos, hin⟩ := hr [] pml (Nat.succ_pos level) trivial rfl
    rw [destroyPml_succ]
    generalize (List.range' start (stop - start)).foldl (destroyEntry pml level) m = m' at hloop ⊢
    have hphys : m'.virtToPhys pml = top * pageSize := by
      rw [Machine.virtToPhys, hloop.hhdm, hpml, Machine.pageAt, Nat.add_sub_cancel]
    rw [hphys]
    have hfree : Frees m' (m'.free (top * pageSize) 1) fun i => i = top := by
      refine ⟨rfl, rfl, Machine.free_ok hloop.ok hpos hin, fun i => ?_⟩
      rw [Machine.free_used hloop.ok hpos hin,
        show (top ≤ i ∧ i < top + 1) = (i = top) from propext (by omega)]
    refine (hloop.trans hfree).congr fun page => ?_
    constructor
    · intro hpage
      obtain ⟨xs, hx, hrange, hw⟩ := hpage
      cases xs with
      | nil => exact Or.inr (pageAt_inj ((Option.some.inj hw).symm.trans hpml))
      | cons i xs =>
        exact Or.inl ⟨i, xs, hrange.1, by have := hrange.2; omega, Nat.lt_of_succ_lt_succ hx, hw⟩
    · intro hpage
      rcases hpage with ⟨i, xs, hle', hlt, hx, hw⟩ | hpage
      · exact ⟨i :: xs, Nat.succ_lt_succ hx, ⟨hle', by omega⟩, hw⟩
      · rw [hpage]
        exact ⟨[], Nat.succ_pos level, trivial, congrArg some hpml⟩

/-- The tables of a space's own are given back, and no other page. -/
theorem destroy_frees {m : Machine P} {space : AddressSpace} (hm : m.Ok)
    (ht : Tables m space.pml4) (hi : Inside m space.pml4) :
    Frees m (space.destroy m) (Own m space.pml4) := by
  have hreturn : Returnable m space.pml4 0 256 4 := by
    intro xs t hx _ hw
    obtain ⟨page, rfl, -⟩ := ht.owned xs t (by omega) hw
    exact ⟨page, rfl, hi xs page (by omega) hw⟩
  refine (destroyPml_frees 4 hm (by omega) (Nat.zero_le 256) hreturn).congr fun page => ?_
  unfold Own Reached
  simp only [ownPath_iff_ranged, Nat.lt_succ_iff]

end Vmm

end UmbraOS
