import UmbraOS.CellStore

namespace UmbraOS

theorem getElem?_concat_eq_some {α : Type} {xs : List α} {e x : α} {j : Nat} :
    (xs ++ [e])[j]? = some x ↔ xs[j]? = some x ∨ j = xs.length ∧ x = e := by
  by_cases hj : j < xs.length
  · rw [List.getElem?_append_left hj]
    exact ⟨Or.inl, fun h => h.resolve_right fun hend => by omega⟩
  · rw [List.getElem?_append_right (by omega), List.getElem?_singleton,
      List.getElem?_eq_none (by omega)]
    constructor
    · intro h
      split at h
      next hzero => exact Or.inr ⟨by omega, (Option.some.inj h).symm⟩
      next => cases h
    · intro h
      obtain ⟨hend, rfl⟩ := h.resolve_left fun h => by cases h
      rw [if_pos (by omega)]

variable {σ ε : Type}

/-- The state after the operations of a list, one after another; it stops at the first trap. -/
def run (step : σ → ε → Except Trap σ) : σ → List ε → Except Trap σ
  | s, [] => .ok s
  | s, e :: es => do
    let t ← step s e
    run step t es

variable {step : σ → ε → Except Trap σ}

@[simp] theorem run_nil (s : σ) : run step s [] = .ok s := rfl

theorem run_cons (s : σ) (e : ε) (es : List ε) :
    run step s (e :: es) = (step s e >>= fun t => run step t es) := rfl

theorem run_cons_ok {s t : σ} {e : ε} {es : List ε} :
    run step s (e :: es) = .ok t ↔ ∃ u, step s e = .ok u ∧ run step u es = .ok t := by
  rw [run_cons, Except.bind_eq_ok]

/-- What every step keeps holds after every run. -/
theorem run_invariant {inv : σ → Prop}
    (keep : ∀ s e t, inv s → step s e = .ok t → inv t) {s t : σ} {es : List ε}
    (start : inv s) (h : run step s es = .ok t) : inv t := by
  induction es generalizing s with
  | nil => cases h; exact start
  | cons e es ih =>
    obtain ⟨u, hu, ht⟩ := run_cons_ok.mp h
    exact ih (keep s e u start hu) ht

/-- What an object returns for the calls of a list, one after another. -/
def answers {ρ : Type} (call : σ → ε → ρ × σ) : σ → List ε → List ρ
  | _, [] => []
  | s, e :: es => (call s e).1 :: answers call (call s e).2 es

/-- Objects whose states stay in a relation, and whose calls return the same in related states, cannot be
told apart. -/
theorem answers_eq {σ' ρ : Type} {call : σ → ε → ρ × σ} {call' : σ' → ε → ρ × σ'} {rel : σ → σ' → Prop}
    (step : ∀ s s' e, rel s s' → (call s e).1 = (call' s' e).1 ∧ rel (call s e).2 (call' s' e).2)
    {s : σ} {s' : σ'} (start : rel s s') (es : List ε) : answers call s es = answers call' s' es := by
  induction es generalizing s s' with
  | nil => rfl
  | cons e es ih =>
    obtain ⟨hsame, hnext⟩ := step s s' e start
    rw [answers, answers, hsame, ih hnext]

/-- What a call returns, it returns in the state that the calls before it have left. -/
theorem mem_answers {ρ : Type} {call : σ → ε → ρ × σ} {s : σ} {es : List ε} {r : ρ} :
    r ∈ answers call s es ↔
      ∃ done e, done ++ [e] <+: es ∧ r = (call (done.foldl (fun s e => (call s e).2) s) e).1 := by
  induction es generalizing s with
  | nil =>
    constructor
    · intro h
      cases h
    · intro h
      obtain ⟨done, e, hprefix, -⟩ := h
      exact absurd (List.prefix_nil.mp hprefix) (by simp)
  | cons e es ih =>
    rw [answers, List.mem_cons, ih]
    constructor
    · intro h
      rcases h with rfl | ⟨done, e', hprefix, rfl⟩
      · exact ⟨[], e, List.prefix_append [e] es, rfl⟩
      · exact ⟨e :: done, e', List.cons_prefix_cons.mpr ⟨rfl, hprefix⟩, rfl⟩
    · intro h
      obtain ⟨done, e', hprefix, rfl⟩ := h
      cases done with
      | nil =>
        obtain ⟨rfl, -⟩ := List.cons_prefix_cons.mp hprefix
        exact Or.inl rfl
      | cons d done =>
        obtain ⟨rfl, hrest⟩ := List.cons_prefix_cons.mp hprefix
        exact Or.inr ⟨done, e', hrest, rfl⟩

/-- Every step of a run meets a condition on the state before it. -/
def StepsMeet (move : σ → ε → σ) (meets : σ → ε → Prop) : σ → List ε → Prop
  | _, [] => True
  | s, e :: es => meets s e ∧ StepsMeet move meets (move s e) es

section StepsMeet

variable {move : σ → ε → σ} {meets : σ → ε → Prop}

theorem stepsMeet_append {s : σ} {xs ys : List ε} : StepsMeet move meets s (xs ++ ys) ↔
    StepsMeet move meets s xs ∧ StepsMeet move meets (xs.foldl move s) ys := by
  induction xs generalizing s with
  | nil => exact ⟨fun h => ⟨trivial, h⟩, fun h => h.2⟩
  | cons x xs ih =>
    rw [List.cons_append, StepsMeet, StepsMeet, List.foldl_cons, ih, and_assoc]

theorem StepsMeet.of_prefix {s : σ} {done es : List ε} (h : StepsMeet move meets s es)
    (hp : done <+: es) : StepsMeet move meets s done := by
  obtain ⟨rest, rfl⟩ := hp
  exact (stepsMeet_append.mp h).1

/-- What every step that meets the condition keeps holds after a run of such steps. -/
theorem StepsMeet.invariant {inv : σ → Prop}
    (keep : ∀ s e, inv s → meets s e → inv (move s e)) {s : σ} {es : List ε}
    (start : inv s) (h : StepsMeet move meets s es) : inv (es.foldl move s) := by
  induction es generalizing s with
  | nil => exact start
  | cons e es ih => exact ih (keep s e start h.1) h.2

/-- Where an invariant makes two conditions the same, runs meet both or neither. -/
theorem stepsMeet_congr {meets' : σ → ε → Prop} {inv : σ → Prop}
    (keep : ∀ s e, inv s → inv (move s e)) (same : ∀ s e, inv s → (meets s e ↔ meets' s e))
    {s : σ} {es : List ε} (start : inv s) :
    StepsMeet move meets s es ↔ StepsMeet move meets' s es := by
  induction es generalizing s with
  | nil => exact Iff.rfl
  | cons e es ih => exact and_congr (same s e start) (ih (keep s e start))

/-- Where the steps with a condition keep an invariant and meet another condition, so do runs. -/
theorem StepsMeet.of_invariant {meets' : σ → ε → Prop} {inv : σ → Prop}
    (keep : ∀ s e, inv s → meets s e → inv (move s e) ∧ meets' s e) {s : σ} {es : List ε}
    (start : inv s) (h : StepsMeet move meets s es) : StepsMeet move meets' s es := by
  induction es generalizing s with
  | nil => trivial
  | cons e es ih =>
    obtain ⟨hkeep, hmeets⟩ := keep s e start h.1
    exact ⟨hmeets, ih hkeep h.2⟩

/-- Where a property follows from an invariant that the steps with the condition keep, and fails
after the others, it holds all along a run exactly when every step meets the condition. -/
theorem stepsMeet_iff {inv good : σ → Prop}
    (keep : ∀ s e, inv s → meets s e → inv (move s e)) (holds : ∀ s, inv s → good s)
    (fails : ∀ s e, inv s → ¬meets s e → ¬good (move s e)) {s : σ} {es : List ε} (start : inv s) :
    (∀ done, done <+: es → good (done.foldl move s)) ↔ StepsMeet move meets s es := by
  induction es generalizing s with
  | nil =>
    refine ⟨fun _ => trivial, fun _ done hdone => ?_⟩
    rw [List.prefix_nil.mp hdone]
    exact holds s start
  | cons e es ih =>
    constructor
    · intro h
      have hmeets : meets s e := by
        by_contra hnot
        exact fails s e start hnot (h [e] (List.prefix_append [e] es))
      refine ⟨hmeets, (ih (keep s e start hmeets)).mp fun done hdone => ?_⟩
      exact h (e :: done) (List.cons_prefix_cons.mpr ⟨rfl, hdone⟩)
    · intro h done hdone
      cases done with
      | nil => exact holds s start
      | cons d ds =>
        obtain ⟨rfl, hrest⟩ := List.cons_prefix_cons.mp hdone
        exact (ih (keep s d start h.1)).mpr h.2 ds hrest

end StepsMeet

/-- Every step that a run takes meets a condition, up to the first trap. -/
def Along (step : σ → ε → Except Trap σ) (meets : σ → ε → σ → Prop) : σ → List ε → Prop
  | _, [] => True
  | s, e :: es => ∀ t, step s e = .ok t → meets s e t ∧ Along step meets t es

/-- What every step that meets the condition keeps holds after a run of such steps. -/
theorem Along.invariant {meets : σ → ε → σ → Prop} {inv : σ → Prop}
    (keep : ∀ s e t, inv s → meets s e t → step s e = .ok t → inv t) {s t : σ} {es : List ε}
    (start : inv s) (h : Along step meets s es) (hr : run step s es = .ok t) : inv t := by
  induction es generalizing s with
  | nil =>
    cases hr
    exact start
  | cons e es ih =>
    obtain ⟨u, hu, hr⟩ := run_cons_ok.mp hr
    obtain ⟨hmeets, hrest⟩ := h u hu
    exact ih (keep s e u start hmeets hu) hrest hr

/-- What every step that meets the condition keeps makes the steps meet another one. -/
theorem Along.imp_of_keep {meets meets' : σ → ε → σ → Prop} {inv : σ → Prop}
    (keep : ∀ s e t, inv s → meets s e t → step s e = .ok t → inv t ∧ meets' s e t) {s : σ} {es : List ε}
    (start : inv s) (h : Along step meets s es) : Along step meets' s es := by
  induction es generalizing s with
  | nil => trivial
  | cons e es ih =>
    intro t ht
    obtain ⟨hmeets, hrest⟩ := h t ht
    obtain ⟨hnext, hmeets'⟩ := keep s e t start hmeets ht
    exact ⟨hmeets', ih hnext hrest⟩

theorem Along.mono {meets meets' : σ → ε → σ → Prop} (hm : ∀ s e t, meets s e t → meets' s e t) {s : σ}
    {es : List ε} (h : Along step meets s es) : Along step meets' s es :=
  @imp_of_keep _ _ step meets meets' (fun _ => True) (fun s e t _ hmeets _ => ⟨trivial, hm s e t hmeets⟩)
    _ _ trivial h

theorem Along.of_forall {meets : σ → ε → σ → Prop} {es : List ε}
    (h : ∀ e ∈ es, ∀ s t, meets s e t) (s : σ) : Along step meets s es := by
  induction es generalizing s with
  | nil => trivial
  | cons e es ih =>
    intro t _
    exact ⟨h e List.mem_cons_self s t, ih (fun e' he => h e' (List.mem_cons_of_mem _ he)) t⟩

theorem Along.cons {meets : σ → ε → σ → Prop} {s t : σ} {e : ε} {es : List ε} (hs : step s e = .ok t)
    (h : meets s e t) (hrest : Along step meets t es) : Along step meets s (e :: es) := by
  intro u hu
  obtain rfl := Except.ok.inj (hs.symm.trans hu)
  exact ⟨h, hrest⟩

theorem Along.and {meets meets' : σ → ε → σ → Prop} {s : σ} {es : List ε}
    (h : Along step meets s es) (h' : Along step meets' s es) :
    Along step (fun s e t => meets s e t ∧ meets' s e t) s es := by
  induction es generalizing s with
  | nil => trivial
  | cons e es ih =>
    intro t ht
    obtain ⟨hm, hrest⟩ := h t ht
    obtain ⟨hm', hrest'⟩ := h' t ht
    exact ⟨⟨hm, hm'⟩, ih hrest hrest'⟩

/-- Where an invariant of the steps that meet the second condition makes two conditions the same,
runs meet both or neither. -/
theorem Along.congr_of_keep {guard meets meets' : σ → ε → σ → Prop} {inv : σ → Prop}
    (same : ∀ s e t, inv s → guard s e t → step s e = .ok t → (meets s e t ↔ meets' s e t))
    (keep : ∀ s e t, inv s → guard s e t → meets' s e t → step s e = .ok t → inv t)
    {s : σ} {es : List ε} (start : inv s) (h : Along step guard s es) :
    Along step meets s es ↔ Along step meets' s es := by
  induction es generalizing s with
  | nil => exact Iff.rfl
  | cons e es ih =>
    unfold Along
    refine forall_congr' fun t => forall_congr' fun ht => ?_
    obtain ⟨hguard, hrest⟩ := h t ht
    rw [same s e t start hguard ht]
    apply and_congr_right
    intro hmeets
    exact ih (keep s e t start hguard hmeets ht) hrest

/-- The same where every guarded step keeps the invariant. -/
theorem Along.congr {guard meets meets' : σ → ε → σ → Prop} {inv : σ → Prop}
    (keep : ∀ s e t, inv s → guard s e t → step s e = .ok t → inv t ∧ (meets s e t ↔ meets' s e t))
    {s : σ} {es : List ε} (start : inv s) (h : Along step guard s es) :
    Along step meets s es ↔ Along step meets' s es :=
  congr_of_keep (fun s e t hi hg hs => (keep s e t hi hg hs).2)
    (fun s e t hi hg _ hs => (keep s e t hi hg hs).1) start h

/-- Every step that a run comes to meets a condition on the state before it. -/
def Ahead (step : σ → ε → Except Trap σ) (meets : σ → ε → Prop) : σ → List ε → Prop
  | _, [] => True
  | s, e :: es => meets s e ∧ ∀ t, step s e = .ok t → Ahead step meets t es

/-- Where the guarded steps keep an invariant, and go on exactly when they meet a condition, a run
goes on to its end exactly when every step it comes to meets the condition. -/
theorem Ahead.run_iff {guard meets : σ → ε → Prop} {inv : σ → Prop}
    (goes : ∀ s e, inv s → guard s e → ((∃ t, step s e = .ok t) ↔ meets s e))
    (keep : ∀ s e t, inv s → guard s e → step s e = .ok t → inv t)
    {s : σ} {es : List ε} (start : inv s) (h : Ahead step guard s es) :
    (∃ t, run step s es = .ok t ∧ inv t) ↔ Ahead step meets s es := by
  induction es generalizing s with
  | nil => exact ⟨fun _ => trivial, fun _ => ⟨s, rfl, start⟩⟩
  | cons e es ih =>
    obtain ⟨hguard, hrest⟩ := h
    have hstep := goes s e start hguard
    constructor
    · intro hrun
      obtain ⟨t, hrun, ht⟩ := hrun
      obtain ⟨u, hu, hrun⟩ := run_cons_ok.mp hrun
      refine ⟨hstep.mp ⟨u, hu⟩, fun v hv => ?_⟩
      obtain rfl := Except.ok.inj (hu.symm.trans hv)
      exact (ih (keep s e u start hguard hu) (hrest u hu)).mp ⟨t, hrun, ht⟩
    · intro hmeets
      obtain ⟨t, ht⟩ := hstep.mpr hmeets.1
      have hinv := keep s e t start hguard ht
      obtain ⟨u, hu, hlast⟩ := (ih hinv (hrest t ht)).mpr (hmeets.2 t ht)
      exact ⟨u, run_cons_ok.mpr ⟨t, ht, hu⟩, hlast⟩

/-- A property that holds after a step exactly when it held before and the step meets a condition
holds after a run exactly when it held at first and every step meets the condition. -/
theorem Ahead.good_iff {meets : σ → ε → Prop} {inv good : σ → Prop}
    (keep : ∀ s e t, inv s → step s e = .ok t → inv t)
    (same : ∀ s e t, inv s → step s e = .ok t → (good t ↔ good s ∧ meets s e))
    {s t : σ} {es : List ε} (start : inv s) (hr : run step s es = .ok t) :
    good t ↔ good s ∧ Ahead step meets s es := by
  induction es generalizing s with
  | nil =>
    cases hr
    exact ⟨fun h => ⟨h, trivial⟩, And.left⟩
  | cons e es ih =>
    obtain ⟨u, hu, hr⟩ := run_cons_ok.mp hr
    have hrest : (∀ v, step s e = .ok v → Ahead step meets v es) ↔ Ahead step meets u es := by
      refine ⟨fun h => h u hu, fun h v hv => ?_⟩
      cases hu.symm.trans hv
      exact h
    rw [ih (keep s e u start hu) hr, same s e u start hu, Ahead, hrest, and_assoc]

/-- Where the steps that meet a condition keep an invariant, and with it meet another condition, so do
runs. -/
theorem Ahead.of_invariant {meets meets' : σ → ε → Prop} {inv : σ → Prop}
    (keep : ∀ s e t, inv s → meets s e → step s e = .ok t → inv t)
    (meet : ∀ s e, inv s → meets s e → meets' s e)
    {s : σ} {es : List ε} (start : inv s) (h : Ahead step meets s es) : Ahead step meets' s es := by
  induction es generalizing s with
  | nil => trivial
  | cons e es ih =>
    exact ⟨meet s e start h.1, fun t ht => ih (keep s e t start h.1 ht) (h.2 t ht)⟩

/-- What the guarded steps keep holds after a run of them. -/
theorem Ahead.invariant {guard : σ → ε → Prop} {inv : σ → Prop}
    (keep : ∀ s e t, inv s → guard s e → step s e = .ok t → inv t) {s t : σ} {es : List ε}
    (start : inv s) (h : Ahead step guard s es) (hr : run step s es = .ok t) : inv t := by
  induction es generalizing s with
  | nil =>
    cases hr
    exact start
  | cons e es ih =>
    obtain ⟨u, hu, hr⟩ := run_cons_ok.mp hr
    exact ih (keep s e u start h.1 hu) (h.2 u hu) hr

/-- Where every guarded step goes on and keeps an invariant, a run of them goes on to its end. -/
theorem Ahead.progress {guard : σ → ε → Prop} {inv : σ → Prop} {s : σ} {es : List ε}
    (h : Ahead step guard s es)
    (goes : ∀ s e, inv s → guard s e → ∃ t, step s e = .ok t ∧ inv t) (start : inv s) :
    ∃ t, run step s es = .ok t ∧ inv t := by
  induction es generalizing s with
  | nil => exact ⟨s, rfl, start⟩
  | cons e es ih =>
    obtain ⟨t, ht, hinv⟩ := goes s e start h.1
    obtain ⟨u, hu, hlast⟩ := ih (h.2 t ht) hinv
    exact ⟨u, run_cons_ok.mpr ⟨t, ht, hu⟩, hlast⟩

/-- Where a guarded step keeps a property exactly when it meets a condition, the property holds all
along a run exactly when every step that is taken meets the condition. -/
theorem Ahead.always_iff {guard meets : σ → ε → Prop} {inv good : σ → Prop}
    (keep : ∀ s e t, inv s → guard s e → step s e = .ok t → inv t ∧ (good s → (good t ↔ meets s e)))
    {s : σ} {es : List ε} (start : inv s) (hgood : good s) (h : Ahead step guard s es) :
    (∀ done t, done <+: es → run step s done = .ok t → good t) ↔
      Along step (fun s e _ => meets s e) s es := by
  induction es generalizing s with
  | nil =>
    refine ⟨fun _ => trivial, fun _ done t hdone hr => ?_⟩
    rw [List.prefix_nil.mp hdone] at hr
    cases hr
    exact hgood
  | cons e es ih =>
    constructor
    · intro hall t ht
      obtain ⟨hinv, hiff⟩ := keep s e t start h.1 ht
      have hnext : good t := hall [e] t (List.prefix_append [e] es) (run_cons_ok.mpr ⟨t, ht, rfl⟩)
      refine ⟨(hiff hgood).mp hnext, (ih hinv hnext (h.2 t ht)).mp fun done u hdone hr => ?_⟩
      exact hall (e :: done) u (List.cons_prefix_cons.mpr ⟨rfl, hdone⟩) (run_cons_ok.mpr ⟨t, ht, hr⟩)
    · intro hmeets done t hdone hr
      cases done with
      | nil =>
        cases hr
        exact hgood
      | cons d ds =>
        obtain ⟨rfl, hrest⟩ := List.cons_prefix_cons.mp hdone
        obtain ⟨u, hu, hr⟩ := run_cons_ok.mp hr
        obtain ⟨hinv, hiff⟩ := keep s d u start h.1 hu
        obtain ⟨hmeet, halong⟩ := hmeets u hu
        exact (ih hinv ((hiff hgood).mpr hmeet) (h.2 u hu)).mpr halong ds t hrest hr

/-- Where an invariant of all steps makes two conditions the same, runs meet both or neither. -/
theorem Ahead.congr {meets meets' : σ → ε → Prop} {inv : σ → Prop}
    (keep : ∀ s e t, inv s → step s e = .ok t → inv t) (same : ∀ s e, inv s → (meets s e ↔ meets' s e))
    {s : σ} {es : List ε} (start : inv s) : Ahead step meets s es ↔ Ahead step meets' s es :=
  ⟨of_invariant (fun s e t hi _ => keep s e t hi) (fun s e hi => (same s e hi).mp) start,
    of_invariant (fun s e t hi _ => keep s e t hi) (fun s e hi => (same s e hi).mpr) start⟩

theorem Ahead.of_prefix {meets : σ → ε → Prop} {s : σ} {done es : List ε} (h : Ahead step meets s es)
    (hp : done <+: es) : Ahead step meets s done := by
  induction done generalizing s es with
  | nil => trivial
  | cons e done ih =>
    obtain ⟨rest, rfl⟩ := hp
    exact ⟨h.1, fun t ht => ih (h.2 t ht) (List.prefix_append done rest)⟩

variable {α β : Type}

/-- A computation that does not stop at a use of a deleted object, and whose result, if it
has one, satisfies `Q`. -/
def Safely (x : Except Trap α) (Q : α → Prop) : Prop :=
  match x with
  | .ok a => Q a
  | .error e => e ≠ .useAfterFree

variable {x : Except Trap α} {Q : α → Prop}

theorem Safely.of_ok {a : α} (h : x = .ok a) (hq : Q a) : Safely x Q := by
  rw [h]
  exact hq

theorem Safely.of_nullDeref (h : x = .error .nullDeref) : Safely x Q := by
  rw [h]
  exact fun he => by cases he

theorem Safely.of_timeout (h : x = .error .timeout) : Safely x Q := by
  rw [h]
  exact fun he => by cases he

theorem Safely.result {a : α} (h : Safely x Q) (ha : x = .ok a) : Q a := by
  rw [ha] at h
  exact h

theorem Safely.ne_useAfterFree (h : Safely x Q) : x ≠ .error .useAfterFree := by
  intro he
  rw [he] at h
  exact h rfl

theorem Safely.mono {R : α → Prop} (h : Safely x Q) (hr : ∀ a, Q a → R a) : Safely x R := by
  cases x with
  | ok a => exact hr a h
  | error e => exact h

/-- The sequential composition rule. -/
theorem Safely.bind {f : α → Except Trap β} {R : β → Prop} (h : Safely x Q)
    (hf : ∀ a, Q a → Safely (f a) R) : Safely (x >>= f) R := by
  cases x with
  | ok a => exact hf a h
  | error e => exact h

theorem Safely.map {f : α → β} {R : β → Prop} (h : Safely x Q) (hf : ∀ a, Q a → R (f a)) :
    Safely (x.map f) R := by
  cases x with
  | ok a => exact hf a h
  | error e => exact h

end UmbraOS
