import UmbraOS.VmmWalk

namespace UmbraOS

namespace Vmm

variable {P : PageSource pageSize}

def offset (virtAddr shift : Nat) : Fin 512 :=
  ⟨(virtAddr >>> shift) &&& 0x1ff, Nat.lt_succ_of_le Nat.and_le_right⟩

/-- The indices of the three tables above the last-level entry of an address. -/
def tablePath (virtAddr : Nat) : List (Fin 512) :=
  [offset virtAddr 39, offset virtAddr 30, offset virtAddr 21]

def pte (m : Machine P) (root virtAddr : Nat) : BitVec 64 :=
  leafEntry m root (tablePath virtAddr) (offset virtAddr 12)

/-- Two addresses agree in bits 12 to 47. -/
def SamePage (v w : Nat) : Prop := v / 2 ^ 12 % 2 ^ 36 = w / 2 ^ 12 % 2 ^ 36

instance (v w : Nat) : Decidable (SamePage v w) := inferInstanceAs (Decidable (_ = _))

theorem offset_eq (v w shift : Nat) :
    offset v shift = offset w shift ↔ v / 2 ^ shift % 512 = w / 2 ^ shift % 512 := by
  have hmask : ∀ x, x &&& 0x1ff = x % 512 := fun x => Nat.and_two_pow_sub_one_eq_mod x 9
  rw [Fin.ext_iff]
  simp only [offset, hmask, Nat.shiftRight_eq_div_pow]

theorem samePage_iff (v w : Nat) :
    SamePage v w ↔ tablePath v = tablePath w ∧ offset v 12 = offset w 12 := by
  simp only [SamePage, tablePath, List.cons.injEq, and_true, offset_eq]
  omega

/-- The addresses that are the user's: bit 47 is clear. -/
def LowerHalf (w : Nat) : Prop := w / 2 ^ 47 % 2 = 0

instance (w : Nat) : Decidable (LowerHalf w) := inferInstanceAs (Decidable (_ = _))

theorem LowerHalf.of_samePage {v w : Nat} (h : SamePage v w) (hv : LowerHalf v) :
    LowerHalf w := by
  unfold SamePage at h
  unfold LowerHalf at hv ⊢
  omega

theorem Reaches.next {root : Nat} {m m' : Machine P} {xs : List (Fin 512)} {t : Nat}
    (h : Reaches root m xs (some t, m')) (hx : xs.length ≤ 2) (i : Fin 512) :
    Reaches root m (xs ++ [i]) (getNextLevel m' t i true) := by
  have hr := getNextLevel_reaches h.grows.ok h.grows.tables hx (h.found t rfl) i
  refine ⟨h.grows.trans hr.grows, hr.found, ?_⟩
  intro hnone
  obtain ⟨hw, hf⟩ := hr.missing hnone
  refine ⟨?_, hf⟩
  cases hp : walk (nextTable m) root (xs ++ [i]) with
  | none => rfl
  | some q =>
    have hlen : (xs ++ [i]).length ≤ 3 := by
      simp only [List.length_append, List.length_singleton]
      omega
    rw [h.grows.keeps _ q hlen hp] at hw
    cases hw

theorem Reaches.stop {root : Nat} {m m' : Machine P} {xs : List (Fin 512)}
    (h : Reaches root m xs (none, m')) (ys : List (Fin 512)) :
    Reaches root m (xs ++ ys) (none, m') := by
  obtain ⟨hw, hf⟩ := h.missing rfl
  refine ⟨h.grows, fun t ht => ?_, fun _ => ⟨?_, hf⟩⟩
  · cases ht
  · rw [walk_append, hw]
    rfl

theorem virtToPte_reaches {m : Machine P} {root : Nat} (hm : m.Ok) (ht : Tables m root) (v : Nat) :
    ∃ r, Reaches root m (tablePath v) r ∧
      virtToPte m root v = (r.1.map fun t => t + 8 * (offset v 12 : Nat), r.2) := by
  have h4 : Reaches root m [offset v 39] (getNextLevel m root (pml4Offset v) true) :=
    getNextLevel_reaches hm ht (show [].length ≤ 2 by simp) rfl (offset v 39)
  rw [virtToPte]
  generalize getNextLevel m root (pml4Offset v) true = r4 at h4 ⊢
  rcases r4 with ⟨_ | pml3, m4⟩
  · exact ⟨(none, m4), Reaches.stop h4 [offset v 30, offset v 21], rfl⟩
  have h3 : Reaches root m [offset v 39, offset v 30] (getNextLevel m4 pml3 (pml3Offset v) true) :=
    h4.next (show [offset v 39].length ≤ 2 by simp) (offset v 30)
  rw [ifNull_some]
  generalize getNextLevel m4 pml3 (pml3Offset v) true = r3 at h3 ⊢
  rcases r3 with ⟨_ | pml2, m3⟩
  · exact ⟨(none, m3), h3.stop [offset v 21], rfl⟩
  have h2 : Reaches root m (tablePath v) (getNextLevel m3 pml2 (pml2Offset v) true) :=
    h3.next (show [offset v 39, offset v 30].length ≤ 2 by simp) (offset v 21)
  rw [ifNull_some]
  generalize getNextLevel m3 pml2 (pml2Offset v) true = r2 at h2 ⊢
  rcases r2 with ⟨_ | pml1, m2⟩
  · exact ⟨(none, m2), h2, rfl⟩
  · exact ⟨(some pml1, m2), h2, rfl⟩

/-- The allocator serves a page for each table that is missing on the way to an address. -/
def TablesServed (m : Machine P) (root virtAddr : Nat) : Prop :=
  P.Serves (missingEdges (nextTable m) root (tablePath virtAddr)) m.pmm

theorem Reaches.served {root : Nat} {m m' : Machine P} {xs : List (Fin 512)} {t : Nat}
    (h : Reaches root m xs (some t, m')) (hx : xs.length ≤ 2) (i : Fin 512)
    (is : List (Fin 512)) :
    ServedBelow (some t, m') (i :: is) ↔ ServedBelow (getNextLevel m' t i true) is := by
  rw [servedBelow_some]
  exact getNextLevel_served h.grows.ok h.grows.tables hx (h.found t rfl) i is

/-- The walk to an entry comes to its end exactly when the allocator serves the tables that
are missing. -/
theorem virtToPte_served {m : Machine P} {root : Nat} (hm : m.Ok) (ht : Tables m root) (v : Nat) :
    (virtToPte m root v).1 ≠ none ↔ TablesServed m root v := by
  have h4 : Reaches root m [offset v 39] (getNextLevel m root (pml4Offset v) true) :=
    getNextLevel_reaches hm ht (show [].length ≤ 2 by simp) rfl (offset v 39)
  have hfirst : TablesServed m root v ↔
      ServedBelow (getNextLevel m root (pml4Offset v) true) [offset v 30, offset v 21] :=
    getNextLevel_served hm ht (show [].length ≤ 2 by simp) rfl (offset v 39) _
  rw [hfirst, virtToPte]
  generalize getNextLevel m root (pml4Offset v) true = r4 at h4 ⊢
  rcases r4 with ⟨_ | pml3, m4⟩
  · exact iff_of_false (fun h => h rfl) (servedBelow_none m4 _)
  have h3 : Reaches root m [offset v 39, offset v 30] (getNextLevel m4 pml3 (pml3Offset v) true) :=
    h4.next (show [offset v 39].length ≤ 2 by simp) (offset v 30)
  have hsecond : ServedBelow (some pml3, m4) [offset v 30, offset v 21] ↔
      ServedBelow (getNextLevel m4 pml3 (pml3Offset v) true) [offset v 21] :=
    h4.served (show [offset v 39].length ≤ 2 by simp) (offset v 30) _
  rw [hsecond, ifNull_some]
  generalize getNextLevel m4 pml3 (pml3Offset v) true = r3 at h3 ⊢
  rcases r3 with ⟨_ | pml2, m3⟩
  · exact iff_of_false (fun h => h rfl) (servedBelow_none m3 _)
  have hthird : ServedBelow (some pml2, m3) [offset v 21] ↔
      ServedBelow (getNextLevel m3 pml2 (pml2Offset v) true) [] :=
    h3.served (show [offset v 39, offset v 30].length ≤ 2 by simp) (offset v 21) _
  rw [hthird, ifNull_some]
  generalize getNextLevel m3 pml2 (pml2Offset v) true = r2
  rcases r2 with ⟨_ | pml1, m2⟩
  · exact iff_of_false (fun h => h rfl) (servedBelow_none m2 _)
  · exact iff_of_true (Option.some_ne_none _) ((servedBelow_some m2 pml1 []).mpr trivial)

theorem leafEntry_of_walk {m : Machine P} {root t : Nat} {xs : List (Fin 512)}
    (h : walk (nextTable m) root xs = some t) (i : Fin 512) :
    leafEntry m root xs i = entry m t i := by
  rw [leafEntry, h]

theorem leafEntry_of_missing {m : Machine P} {root : Nat} {xs : List (Fin 512)}
    (h : walk (nextTable m) root xs = none) (i : Fin 512) : leafEntry m root xs i = 0#64 := by
  rw [leafEntry, h]

theorem Grows.pte {root : Nat} {m m' : Machine P} (h : Grows root m m') (v : Nat) :
    pte m' root v = pte m root v :=
  h.leaf _ _ rfl

/-- The address a last-level entry translates to. -/
def translation (e : BitVec 64) : BitVec 64 :=
  if e &&& ptePresent = 0#64 then BitVec.allOnes 64 else pteGetAddr e

theorem virtToPhys_eq {m : Machine P} {space : AddressSpace} (hm : m.Ok)
    (ht : Tables m space.pml4) (v : Nat) :
    (space.virtToPhys m v).1 = translation (pte m space.pml4 v) := by
  obtain ⟨⟨r, m'⟩, hr, heq⟩ := virtToPte_reaches hm ht v
  rw [AddressSpace.virtToPhys, heq]
  cases r with
  | none =>
    rw [pte, leafEntry_of_missing (hr.missing rfl).1]
    rfl
  | some t =>
    have hp : pte m space.pml4 v = m'.mem.load64 (t + 8 * (offset v 12 : Nat)) := by
      rw [← hr.grows.pte v, pte, leafEntry_of_walk (hr.found t rfl), entry]
    rw [hp, translation]
    rw [Option.map_some, ifNull_some]
    split <;> rfl

theorem translation_allOnes {e : BitVec 64} :
    translation e = BitVec.allOnes 64 ↔ e &&& ptePresent = 0#64 := by
  rw [translation]
  split
  next h => exact ⟨fun _ => h, fun _ => rfl⟩
  next h =>
    refine ⟨fun ha => ?_, fun hp => absurd hp h⟩
    -- the low bit of an address field is clear
    have hb : (pteGetAddr e).getLsbD 0 = false := by simp [pteGetAddr]
    rw [ha] at hb
    simp at hb

end Vmm

end UmbraOS
