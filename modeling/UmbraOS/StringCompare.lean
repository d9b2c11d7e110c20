import UmbraOS.InitramfsArchive
import UmbraOS.Terminal

namespace UmbraOS

namespace CString

/-- A byte that `strcmp` reads, by its position in one of the strings. -/
inductive CompareRead
  | first (i : Nat)
  | second (i : Nat)
deriving DecidableEq

/-- What `strcmp` reads from position `i` on. -/
def strcmpReads (second : Nat → Byte) : CString → Nat → List CompareRead
  | [], i => [.first i]
  | _ :: cs, i => [.first i, .first (i + 1), .second (i + 1)] ++
      if cs.headD 0#8 ≠ second (i + 1) then [] else strcmpReads second cs (i + 1)

/-- The byte is in the string or is its terminator. -/
def CompareRead.Inside (first second : Nat) : CompareRead → Prop
  | .first i => i ≤ first
  | .second i => i ≤ second

instance (first second : Nat) : DecidablePred (CompareRead.Inside first second) := fun r =>
  match r with
  | .first i => inferInstanceAs (Decidable (i ≤ first))
  | .second i => inferInstanceAs (Decidable (i ≤ second))

/-- The comparison decides equality and stays inside both strings. -/
structure Compares (a b : CString) (second : Nat → Byte) : Prop where
  decides : strcmp a second = true ↔ a = b
  inside : ∀ r ∈ strcmpReads second a 0, r.Inside a.length b.length

theorem strcmp_stop {second : Nat → Byte} (c : Byte) {cs : CString} {i : Nat}
    (h : cs.headD 0#8 ≠ second (i + 1)) : strcmpFrom second (c :: cs) i = false ∧
      strcmpReads second (c :: cs) i = [.first i, .first (i + 1), .second (i + 1)] := by
  constructor
  · exact if_pos h
  · rw [strcmpReads, if_pos h, List.append_nil]

theorem strcmp_next {second : Nat → Byte} (c : Byte) (cs : CString) {i : Nat}
    (h : cs.headD 0#8 = second (i + 1)) :
    strcmpFrom second (c :: cs) i = strcmpFrom second cs (i + 1) ∧ strcmpReads second (c :: cs) i =
      [.first i, .first (i + 1), .second (i + 1)] ++ strcmpReads second cs (i + 1) := by
  constructor
  · exact if_neg (not_not.mpr h)
  · rw [strcmpReads, if_neg (not_not.mpr h)]

theorem inside_step {first second i : Nat} (hfirst : i + 1 ≤ first) (hsecond : i + 1 ≤ second) :
    ∀ r ∈ [CompareRead.first i, .first (i + 1), .second (i + 1)], r.Inside first second := by
  intro r hr
  simp only [List.mem_cons, List.not_mem_nil, or_false] at hr
  rcases hr with rfl | rfl | rfl
  · exact Nat.le_of_succ_le hfirst
  · exact hfirst
  · exact hsecond

/-- From a character that is not the terminator on, what follows it is compared. -/
theorem strcmpFrom_tails {second : Nat → Byte} {c : Byte} {cs ds : CString} {i : Nat}
    (hcs : 0#8 ∉ cs) (hds : At second (i + 1) ds) :
    (strcmpFrom second (c :: cs) i = true ↔ cs = ds) ∧
      ∀ r ∈ strcmpReads second (c :: cs) i, r.Inside (i + 1 + cs.length) (i + 1 + ds.length) := by
  have hhere := inside_step (Nat.le_add_right (i + 1) cs.length) (Nat.le_add_right (i + 1) ds.length)
  induction cs generalizing c ds i with
  | nil =>
    cases ds with
    | nil =>
      obtain ⟨hresult, hreads⟩ := strcmp_next c [] hds.symm
      rw [hresult, hreads]
      refine ⟨iff_of_true rfl rfl, fun r hr => ?_⟩
      rcases List.mem_append.mp hr with hr | hr
      · exact hhere r hr
      · obtain rfl := List.mem_singleton.mp hr
        exact Nat.le_refl _
    | cons d ds =>
      have hne : [].headD 0#8 ≠ second (i + 1) := by
        rw [hds.1]
        exact hds.2.1.symm
      obtain ⟨hresult, hreads⟩ := strcmp_stop c hne
      rw [hresult, hreads]
      exact ⟨iff_of_false Bool.false_ne_true (List.cons_ne_nil d ds).symm, hhere⟩
  | cons c' cs ih =>
    have hc' : c' ≠ 0#8 := fun h => hcs (h ▸ List.mem_cons_self)
    cases ds with
    | nil =>
      have hne : (c' :: cs).headD 0#8 ≠ second (i + 1) := by
        rw [show second (i + 1) = 0#8 from hds]
        exact hc'
      obtain ⟨hresult, hreads⟩ := strcmp_stop c hne
      rw [hresult, hreads]
      exact ⟨iff_of_false Bool.false_ne_true (List.cons_ne_nil c' cs), hhere⟩
    | cons d ds =>
      obtain ⟨hd, -, hrest⟩ := hds
      by_cases heq : c' = d
      · obtain ⟨hdecides, hinside⟩ := ih (c := c') (fun h => hcs (List.mem_cons_of_mem c' h)) hrest
          (inside_step (Nat.le_add_right _ _) (Nat.le_add_right _ _))
        obtain ⟨hresult, hreads⟩ := strcmp_next c (c' :: cs) (heq.trans hd.symm)
        rw [hresult, hreads, hdecides, heq, List.cons.injEq, and_iff_right rfl]
        refine ⟨Iff.rfl, fun r hr => ?_⟩
        rcases List.mem_append.mp hr with hr | hr
        · rw [heq] at hhere
          exact hhere r hr
        · have hin := hinside r (heq ▸ hr)
          rw [List.length_cons, List.length_cons, Nat.add_comm cs.length, Nat.add_comm ds.length,
            ← Nat.add_assoc, ← Nat.add_assoc]
          exact hin
      · have hne : (c' :: cs).headD 0#8 ≠ second (i + 1) := by
          rw [hd]
          exact heq
        obtain ⟨hresult, hreads⟩ := strcmp_stop c hne
        rw [hresult, hreads]
        exact ⟨iff_of_false Bool.false_ne_true fun h => heq (List.cons.inj h).1, hhere⟩

/-- `strcmp` is an equality test that stays inside the strings exactly when both strings or none are
empty, and they do not differ in the first character alone. -/
theorem strcmp_compares_iff {a b : CString} {second : Nat → Byte} (ha : 0#8 ∉ a)
    (hb : At second 0 b) :
    Compares a b second ↔ (a = [] ↔ b = []) ∧ (a.tail = b.tail → a.head? = b.head?) := by
  cases a with
  | nil =>
    have hinside : ∀ r ∈ strcmpReads second [] 0, r.Inside 0 b.length := by
      intro r hr
      obtain rfl := List.mem_singleton.mp hr
      exact Nat.le_refl 0
    constructor
    · intro h
      obtain rfl := h.decides.mp rfl
      exact ⟨Iff.rfl, fun _ => rfl⟩
    · intro h
      obtain rfl := h.1.mp rfl
      exact ⟨iff_of_true rfl rfl, hinside⟩
  | cons c cs =>
    cases b with
    | nil =>
      refine iff_of_false (fun h => ?_) fun h => List.cons_ne_nil c cs (h.1.mpr rfl)
      -- the character behind the terminator is compared
      have hread : CompareRead.second 1 ∈ strcmpReads second (c :: cs) 0 := by
        unfold strcmpReads
        simp
      exact absurd (h.inside _ hread) (Nat.not_succ_le_zero 0)
    | cons d ds =>
      obtain ⟨-, -, hrest⟩ := hb
      obtain ⟨hdecides, hinside⟩ := strcmpFrom_tails (c := c) (fun h => ha (List.mem_cons_of_mem c h)) hrest
      have hcompares : Compares (c :: cs) (d :: ds) second ↔ (cs = ds → c = d) := by
        constructor
        · intro h heq
          exact (List.cons.inj (h.decides.mp (hdecides.mpr heq))).1
        · intro h
          refine ⟨?_, fun r hr => ?_⟩
          · unfold strcmp
            rw [hdecides]
            constructor
            · intro heq
              rw [h heq, heq]
            · exact fun heq => (List.cons.inj heq).2
          · have hin := hinside r hr
            rw [Nat.zero_add, Nat.add_comm, Nat.add_comm 1] at hin
            exact hin
      rw [hcompares]
      simp

/-- The colour code "red". -/
theorem red_at : At Puts.red 0 [0x72#8, 0x65#8, 0x64#8] := by
  simp [At, Puts.red, Puts.literal]

theorem strcmp_compares_red : 0#8 ∉ [0x72#8, 0x65#8, 0x64#8] ∧
    Compares [0x72#8, 0x65#8, 0x64#8] [0x72#8, 0x65#8, 0x64#8] Puts.red :=
  ⟨by decide, (strcmp_compares_iff (by decide) red_at).mpr ⟨Iff.rfl, fun _ => rfl⟩⟩

/-- "bed" is taken for "red". -/
theorem strcmp_first_ignored : ¬∀ (a b : CString) (second : Nat → Byte), 0#8 ∉ a → At second 0 b →
    Compares a b second := by
  intro h
  have hcompares := h [0x62#8, 0x65#8, 0x64#8] [0x72#8, 0x65#8, 0x64#8] Puts.red (by decide) red_at
  exact absurd (hcompares.decides.mp rfl) (by decide)

end CString

end UmbraOS
