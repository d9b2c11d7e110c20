import UmbraOS.Ringbuffer

namespace UmbraOS

/-- The steps that the code around a `read().unwrap()` is made of, with the points they go on to.
`saveInterrupts` and `disableInterrupts` are `Spinlock::acquire`, `restoreInterrupts` is
`Spinlock::release`; `branch` is a decision on anything but the ring. -/
inductive Action
  | test (empty nonempty : Nat)
  | awaitIo (next : Nat)
  | saveInterrupts (next : Nat)
  | disableInterrupts (next : Nat)
  | enableInterrupts (next : Nat)
  | restoreInterrupts (next : Nat)
  | read (next : Nat)
  | branch (first second : Nat)

/-- The code between two reads of a ring, a step for each point. -/
abbrev Program := List Action

/-- The single consumer of a ring. `first` is the index that the comparison `head == tail` has
loaded; `interrupts` is the consumer's interrupt flag and `restore` the `restore_interrupts` of
the lock of the ring. `failed` is not in the source: it records an `unwrap` of nothing. -/
structure Consumer (α : Type) (size : Nat) where
  ring : Ringbuffer α size
  point : Nat
  first : Option Nat
  onCpu : Bool
  interrupts : Bool
  restore : Bool
  failed : Bool

/-- `produce` are items written by an interrupt handler or by another task with interrupts
disabled, under the lock of the ring or without it; `preempt` and `resume` are what `schedule`
does to the consumer. -/
inductive ConsumerEvent (α : Type)
  | produce (items : List α) (locks : Bool)
  | preempt
  | resume
  | task (choice : Bool)

namespace Consumer

variable {α : Type} {size : Nat}

/-- The index that is loaded first when `head` and `tail` are compared, and the other one. -/
def indices (headFirst : Bool) (r : Ringbuffer α size) : Nat × Nat :=
  if headFirst then (r.head, r.tail) else (r.tail, r.head)

/-- The two loads of a comparison; `equal` and `unequal` are what follows it. -/
def compare (headFirst : Bool) (s : Consumer α size) (equal unequal : Consumer α size) :
    Consumer α size :=
  match s.first with
  | none => { s with first := some (indices headFirst s.ring).1 }
  | some i => if i = (indices headFirst s.ring).2 then equal else unequal

def task (code : Program) (headFirst choice : Bool) (s : Consumer α size) : Consumer α size :=
  if !s.onCpu then s
  else
    match code[s.point]? with
    | none => s
    | some (.test empty nonempty) =>
      s.compare headFirst { s with first := none, point := empty }
        { s with first := none, point := nonempty }
    | some (.awaitIo next) => { s with onCpu := false, point := next }
    | some (.saveInterrupts next) => { s with restore := s.interrupts, point := next }
    | some (.disableInterrupts next) => { s with interrupts := false, point := next }
    | some (.enableInterrupts next) => { s with interrupts := true, point := next }
    | some (.restoreInterrupts next) =>
      { s with interrupts := s.interrupts || s.restore, point := next }
    | some (.read next) =>
      s.compare headFirst { s with first := none, point := next, failed := true }
        { s with
          first := none
          point := next
          ring := { s.ring with tail := (s.ring.tail + 1) % size } }
    | some (.branch first second) => { s with point := if choice then first else second }

def step (code : Program) (headFirst : Bool) (s : Consumer α size) :
    ConsumerEvent α → Consumer α size
  | .produce items locks =>
    if !s.onCpu || s.interrupts then
      { s with ring := items.foldl Ringbuffer.write s.ring, restore := s.restore && !locks }
    else s
  | .preempt => if s.interrupts then { s with onCpu := false } else s
  | .resume => { s with onCpu := true }
  | .task choice => s.task code headFirst choice

/-- The loop of `packet_handler`, a task that runs with interrupts. -/
def packetHandler : Program :=
  [.test 1 3, .test 2 3, .awaitIo 1, .saveInterrupts 4, .disableInterrupts 5, .read 6,
    .restoreInterrupts 0]

/-- `recv_msg` of UDP and ICMP sockets: the gate of system calls disables interrupts, and the
user program runs with them from the return of a call to the next one. -/
def recvMsg : Program :=
  [.saveInterrupts 1, .disableInterrupts 2, .test 3 8, .restoreInterrupts 4, .branch 10 5,
    .test 6 8, .test 7 8, .awaitIo 6, .read 9, .restoreInterrupts 10, .enableInterrupts 11,
    .disableInterrupts 0]

/-- `Tty::read`, which is called in `sys_read`. -/
def ttyRead : Program :=
  [.branch 6 1, .test 2 4, .test 3 4, .awaitIo 2, .read 5, .branch 0 6, .enableInterrupts 7,
    .disableInterrupts 0]

/-- What is known at a point of the code: interrupts are disabled, the lock will not enable
them, the ring is not empty. -/
structure Known where
  masked : Bool
  unarmed : Bool
  nonempty : Bool

namespace Known

/-- What is known first follows from what is known second. -/
def Follows (k k' : Known) : Prop :=
  (k.masked = true → k'.masked = true) ∧ (k.unarmed = true → k'.unarmed = true) ∧
    (k.nonempty = true → k'.nonempty = true)

instance (k k' : Known) : Decidable (k.Follows k') := inferInstanceAs (Decidable (_ ∧ _ ∧ _))

/-- What is known at the points that follow a step. -/
def after (k : Known) : Action → List (Nat × Known)
  | .test empty nonempty =>
    [(empty, { k with nonempty := false }), (nonempty, { k with nonempty := true })]
  | .awaitIo next => [(next, k)]
  | .saveInterrupts next => [(next, { k with unarmed := k.masked })]
  | .disableInterrupts next => [(next, { k with masked := true })]
  | .enableInterrupts next => [(next, { k with masked := false })]
  | .restoreInterrupts next => [(next, { k with masked := k.masked && k.unarmed })]
  | .read next => [(next, { k with nonempty := false })]
  | .branch first second => [(first, k), (second, k)]

/-- A read is only allowed where the ring is known not to be empty and no interrupt can come. -/
def Allows (k : Known) : Action → Prop
  | .read _ => k.masked = true ∧ k.nonempty = true
  | _ => True

instance (k : Known) : (a : Action) → Decidable (k.Allows a)
  | .read _ => inferInstanceAs (Decidable (_ ∧ _))
  | .test _ _ | .awaitIo _ | .saveInterrupts _ | .disableInterrupts _ | .enableInterrupts _
  | .restoreInterrupts _ | .branch _ _ => inferInstanceAs (Decidable True)

def nothing : Known := ⟨false, false, false⟩

end Known

/-- The facts of a list hold at the points of the code whenever they are reached. -/
def Checks (code : Program) (facts : List Known) : Prop :=
  facts.length = code.length ∧ ∀ p ∈ code.zip facts, p.2.Allows p.1 ∧
    ∀ q ∈ p.2.after p.1, (facts.getD q.1 Known.nothing).Follows q.2

instance (code : Program) (facts : List Known) : Decidable (Checks code facts) :=
  inferInstanceAs (Decidable (_ ∧ _))

/-- What is known at a point is so. -/
structure Holds (k : Known) (s : Consumer α size) : Prop where
  masked : k.masked = true → s.interrupts = false
  unarmed : k.unarmed = true → s.restore = false
  nonempty : k.nonempty = true → s.ring.isEmpty = false

/-- What the steps of a checked program keep. An index that was loaded is still the right one, or
the ring has been written since; where no interrupt can come it is the right one. -/
structure Inv (headFirst : Bool) (facts : List Known) (s : Consumer α size) : Prop where
  ring : s.ring.Ok
  holds : Holds (facts.getD s.point Known.nothing) s
  loaded : ∀ i, s.first = some i → i = (indices headFirst s.ring).1 ∨ s.ring.isEmpty = false
  still : ∀ i, s.first = some i → (facts.getD s.point Known.nothing).masked = true →
    i = (indices headFirst s.ring).1 ∧ s.onCpu = true
  sound : s.failed = false

theorem Holds.mono {k k' : Known} {s : Consumer α size} (h : Holds k' s) (hf : k.Follows k') :
    Holds k s :=
  ⟨fun hk => h.masked (hf.1 hk), fun hk => h.unarmed (hf.2.1 hk), fun hk => h.nonempty (hf.2.2 hk)⟩

theorem isEmpty_indices (headFirst : Bool) (r : Ringbuffer α size) :
    r.isEmpty = true ↔ (indices headFirst r).1 = (indices headFirst r).2 := by
  rw [Ringbuffer.isEmpty, beq_iff_eq]
  cases headFirst with
  | true => exact Iff.rfl
  | false => exact eq_comm

theorem write_nonempty {r : Ringbuffer α size} (h : r.Ok) (hs : 2 ≤ size) (item : α) :
    (r.write item).isEmpty = false := by
  have ht := h.tail
  rw [Ringbuffer.isEmpty, beq_eq_false_iff_ne]
  simp only [Ringbuffer.write]
  by_cases hfull : (r.head + 1) % size = r.tail
  · rw [if_pos hfull, hfull, Ringbuffer.succ_mod ht]
    split <;> omega
  · rw [if_neg hfull]
    exact hfull

/-- A ring that was written is not empty. -/
theorem writes_spec {r : Ringbuffer α size} (h : r.Ok) (hs : 2 ≤ size) (items : List α) :
    (items.foldl Ringbuffer.write r).Ok ∧ (items.foldl Ringbuffer.write r = r ∨
      (items.foldl Ringbuffer.write r).isEmpty = false) := by
  induction items generalizing r with
  | nil => exact ⟨h, Or.inl rfl⟩
  | cons item items ih =>
    obtain ⟨hok, hne⟩ := ih (Ringbuffer.write_ok h item)
    rw [List.foldl_cons]
    refine ⟨hok, Or.inr ?_⟩
    rcases hne with hsame | hne
    · rw [hsame]
      exact write_nonempty h hs item
    · exact hne

variable {code : Program} {facts : List Known} {headFirst : Bool} {s : Consumer α size}

/-- What is known at the point of a step allows it, and what is known at the next points follows. -/
theorem Checks.at (hc : Checks code facts) {a : Action} (ha : code[s.point]? = some a) :
    (facts.getD s.point Known.nothing).Allows a ∧
      ∀ q ∈ (facts.getD s.point Known.nothing).after a,
        (facts.getD q.1 Known.nothing).Follows q.2 := by
  obtain ⟨hlt, hget⟩ := List.getElem?_eq_some_iff.mp ha
  have hfacts : s.point < facts.length := hc.1 ▸ hlt
  have hknown : facts.getD s.point Known.nothing = facts[s.point] := by
    rw [List.getD_eq_getElem?_getD, List.getElem?_eq_getElem hfacts, Option.getD_some]
  have hmem : (a, facts[s.point]) ∈ code.zip facts := by
    apply List.mem_iff_getElem?.mpr
    refine ⟨s.point, ?_⟩
    rw [List.getElem?_zip_eq_some]
    exact ⟨ha, List.getElem?_eq_getElem hfacts⟩
  rw [hknown]
  exact hc.2 _ hmem

/-- A step that goes on to a point of which `k` is known keeps the invariant. -/
theorem Inv.goto (h : Inv headFirst facts s) {t : Consumer α size} {k : Known}
    (hf : (facts.getD t.point Known.nothing).Follows k) (hk : Holds k t) (hring : t.ring.Ok)
    (hfirst : t.first = none) (hfailed : t.failed = s.failed) : Inv headFirst facts t where
  ring := hring
  holds := hk.mono hf
  loaded i hi := by
    rw [hfirst] at hi
    cases hi
  still i hi := by
    rw [hfirst] at hi
    cases hi
  sound := hfailed.trans h.sound

/-- The first load of a comparison. -/
theorem Inv.load (h : Inv headFirst facts s) (hcpu : s.onCpu = true) :
    Inv headFirst facts { s with first := some (indices headFirst s.ring).1 } where
  ring := h.ring
  holds := ⟨h.holds.masked, h.holds.unarmed, h.holds.nonempty⟩
  loaded _ hi := Or.inl (Option.some.inj hi).symm
  still _ hi _ := ⟨(Option.some.inj hi).symm, hcpu⟩
  sound := h.sound

/-- A comparison that finds the indices unequal has found the ring not empty. -/
theorem Inv.unequal (h : Inv headFirst facts s) {i : Nat} (hi : s.first = some i)
    (hne : i ≠ (indices headFirst s.ring).2) : s.ring.isEmpty = false := by
  rcases h.loaded i hi with rfl | hnonempty
  · rw [← Bool.not_eq_true, isEmpty_indices headFirst]
    exact hne
  · exact hnonempty

theorem Inv.test (h : Inv headFirst facts s) (hcpu : s.onCpu = true) {empty nonempty : Nat}
    (hafter : ∀ q ∈ (facts.getD s.point Known.nothing).after (.test empty nonempty),
      (facts.getD q.1 Known.nothing).Follows q.2) :
    Inv headFirst facts (s.compare headFirst { s with first := none, point := empty }
      { s with first := none, point := nonempty }) := by
  unfold compare
  cases hfirst : s.first with
  | none => exact h.load hcpu
  | some i =>
    simp only
    split
    next =>
      refine h.goto (hafter _ List.mem_cons_self) ?_ h.ring rfl rfl
      exact ⟨h.holds.masked, h.holds.unarmed, fun hk => by cases hk⟩
    next hne =>
      refine h.goto (hafter _ (List.mem_cons_of_mem _ List.mem_cons_self)) ?_ h.ring rfl rfl
      exact ⟨h.holds.masked, h.holds.unarmed, fun _ => h.unequal hfirst hne⟩

/-- A read finds an item: its first load is not out of date, and the ring is not empty. -/
theorem Inv.read (h : Inv headFirst facts s) (hcpu : s.onCpu = true) {next : Nat}
    (hallows : (facts.getD s.point Known.nothing).Allows (.read next))
    (hafter : ∀ q ∈ (facts.getD s.point Known.nothing).after (.read next),
      (facts.getD q.1 Known.nothing).Follows q.2) :
    Inv headFirst facts (s.compare headFirst { s with first := none, point := next, failed := true }
      { s with
        first := none
        point := next
        ring := { s.ring with tail := (s.ring.tail + 1) % size } }) := by
  obtain ⟨hmasked, hknown⟩ := hallows
  have hnonempty := h.holds.nonempty hknown
  unfold compare
  cases hfirst : s.first with
  | none => exact h.load hcpu
  | some i =>
    have hi := (h.still i hfirst hmasked).1
    have hne : i ≠ (indices headFirst s.ring).2 := by
      rw [hi, Ne, ← isEmpty_indices headFirst, Bool.not_eq_true]
      exact hnonempty
    simp only
    rw [if_neg hne]
    have hpos : 0 < size := Nat.lt_of_le_of_lt (Nat.zero_le _) h.ring.head
    refine h.goto (hafter _ List.mem_cons_self) ?_ ⟨h.ring.head, Nat.mod_lt _ hpos⟩ rfl rfl
    exact ⟨h.holds.masked, h.holds.unarmed, fun hk => by cases hk⟩

/-- Only at a comparison an index is loaded. -/
def FirstAt (code : Program) (s : Consumer α size) : Prop :=
  s.first ≠ none → (∃ e n, code[s.point]? = some (.test e n)) ∨ ∃ n, code[s.point]? = some (.read n)

theorem FirstAt.idle (hf : FirstAt code s) {a : Action} (ha : code[s.point]? = some a)
    (htest : ∀ e n, a ≠ .test e n) (hread : ∀ n, a ≠ .read n) : s.first = none := by
  by_contra hne
  rcases hf hne with ⟨e, n, hcode⟩ | ⟨n, hcode⟩
  · exact htest e n (Option.some.inj (ha.symm.trans hcode))
  · exact hread n (Option.some.inj (ha.symm.trans hcode))

theorem Inv.task (hc : Checks code facts) (h : Inv headFirst facts s) (hf : FirstAt code s)
    (choice : Bool) : Inv headFirst facts (s.task code headFirst choice) := by
  unfold Consumer.task
  by_cases hcpu : s.onCpu = true
  · have hruns : ¬(!s.onCpu) = true := by simp [hcpu]
    rw [if_neg hruns]
    cases ha : code[s.point]? with
    | none => exact h
    | some a =>
      obtain ⟨hallows, hafter⟩ := hc.at ha
      cases a with
      | test empty nonempty => exact h.test hcpu hafter
      | read next => exact h.read hcpu hallows hafter
      | awaitIo next =>
        have hfirst := hf.idle ha (fun _ _ => by simp) (fun _ => by simp)
        show Inv headFirst facts { s with onCpu := false, point := next }
        refine h.goto (hafter (next, _) List.mem_cons_self) ?_ h.ring hfirst rfl
        exact ⟨h.holds.masked, h.holds.unarmed, h.holds.nonempty⟩
      | saveInterrupts next =>
        have hfirst := hf.idle ha (fun _ _ => by simp) (fun _ => by simp)
        show Inv headFirst facts { s with restore := s.interrupts, point := next }
        refine h.goto (hafter (next, _) List.mem_cons_self) ?_ h.ring hfirst rfl
        exact ⟨h.holds.masked, h.holds.masked, h.holds.nonempty⟩
      | disableInterrupts next =>
        have hfirst := hf.idle ha (fun _ _ => by simp) (fun _ => by simp)
        show Inv headFirst facts { s with interrupts := false, point := next }
        refine h.goto (hafter (next, _) List.mem_cons_self) ?_ h.ring hfirst rfl
        exact ⟨fun _ => rfl, h.holds.unarmed, h.holds.nonempty⟩
      | enableInterrupts next =>
        have hfirst := hf.idle ha (fun _ _ => by simp) (fun _ => by simp)
        show Inv headFirst facts { s with interrupts := true, point := next }
        refine h.goto (hafter (next, _) List.mem_cons_self) ?_ h.ring hfirst rfl
        exact ⟨(fun hk => by cases hk), h.holds.unarmed, h.holds.nonempty⟩
      | restoreInterrupts next =>
        have hfirst := hf.idle ha (fun _ _ => by simp) (fun _ => by simp)
        show Inv headFirst facts { s with
          interrupts := s.interrupts || s.restore
          point := next }
        refine h.goto (hafter (next, _) List.mem_cons_self) ?_ h.ring hfirst rfl
        refine ⟨fun hk => ?_, h.holds.unarmed, h.holds.nonempty⟩
        obtain ⟨hm, hu⟩ := Bool.and_eq_true_iff.mp hk
        simp only [h.holds.masked hm, h.holds.unarmed hu, Bool.or_self]
      | branch first second =>
        have hfirst := hf.idle ha (fun _ _ => by simp) (fun _ => by simp)
        have hboth : (facts.getD (if choice then first else second) Known.nothing).Follows
            (facts.getD s.point Known.nothing) := by
          cases choice with
          | true => exact hafter (first, _) List.mem_cons_self
          | false => exact hafter (second, _) (List.mem_cons_of_mem _ List.mem_cons_self)
        show Inv headFirst facts { s with point := if choice then first else second }
        refine h.goto hboth ?_ h.ring hfirst rfl
        exact ⟨h.holds.masked, h.holds.unarmed, h.holds.nonempty⟩
  · have hstays : (!s.onCpu) = true := by simp [hcpu]
    rw [if_pos hstays]
    exact h

/-- After a comparison the loaded index is gone. -/
theorem FirstAt.compare (hf : (∃ e n, code[s.point]? = some (.test e n)) ∨
      ∃ n, code[s.point]? = some (.read n)) {equal unequal : Consumer α size}
    (he : equal.first = none) (hu : unequal.first = none) :
    FirstAt code (s.compare headFirst equal unequal) := by
  intro hne
  unfold Consumer.compare at hne ⊢
  cases hfirst : s.first with
  | none => exact hf
  | some i =>
    rw [hfirst] at hne
    simp only at hne
    split at hne
    · exact absurd he hne
    · exact absurd hu hne

theorem FirstAt.task (hf : FirstAt code s) (choice : Bool) :
    FirstAt code (s.task code headFirst choice) := by
  unfold Consumer.task
  by_cases hcpu : (!s.onCpu) = true
  · rw [if_pos hcpu]
    exact hf
  · rw [if_neg hcpu]
    cases ha : code[s.point]? with
    | none => exact hf
    | some a =>
      cases a with
      | test empty nonempty => exact FirstAt.compare (Or.inl ⟨empty, nonempty, ha⟩) rfl rfl
      | read next => exact FirstAt.compare (Or.inr ⟨next, ha⟩) rfl rfl
      | _ => exact fun hne => absurd (hf.idle ha (fun _ _ => by simp) (fun _ => by simp)) hne

theorem Inv.produce (h : Inv headFirst facts s) (hs : 2 ≤ size) (items : List α) (locks : Bool)
    (hcomes : (!s.onCpu || s.interrupts) = true) :
    Inv headFirst facts { s with
      ring := items.foldl Ringbuffer.write s.ring
      restore := s.restore && !locks } := by
  obtain ⟨hok, hsame⟩ := writes_spec h.ring hs items
  constructor
  · exact hok
  · refine ⟨h.holds.masked, fun hk => ?_, fun hk => ?_⟩
    · simp only [h.holds.unarmed hk, Bool.false_and]
    · rcases hsame with hsame | hne
      · exact (congrArg Ringbuffer.isEmpty hsame).trans (h.holds.nonempty hk)
      · exact hne
  · intro i hi
    rcases hsame with hsame | hne
    · simp only [hsame]
      exact h.loaded i hi
    · exact Or.inr hne
  · intro i hi hmasked
    -- a consumer that has loaded an index with interrupts disabled is not interrupted
    have hcpu := (h.still i hi hmasked).2
    have hflag := h.holds.masked hmasked
    rw [hcpu, hflag] at hcomes
    cases hcomes
  · exact h.sound

theorem Inv.step (hc : Checks code facts) (h : Inv headFirst facts s) (hf : FirstAt code s)
    (hs : 2 ≤ size) (e : ConsumerEvent α) : Inv headFirst facts (s.step code headFirst e) := by
  cases e with
  | produce items locks =>
    simp only [Consumer.step]
    split
    next hcomes => exact h.produce hs items locks hcomes
    next => exact h
  | preempt =>
    simp only [Consumer.step]
    split
    next hcomes =>
      refine ⟨h.ring, ⟨h.holds.masked, h.holds.unarmed, h.holds.nonempty⟩, h.loaded, ?_, h.sound⟩
      intro i _ hmasked
      have hflag := h.holds.masked hmasked
      rw [hflag] at hcomes
      cases hcomes
    next => exact h
  | resume =>
    refine ⟨h.ring, ⟨h.holds.masked, h.holds.unarmed, h.holds.nonempty⟩, h.loaded, ?_, h.sound⟩
    exact fun i hi hmasked => ⟨(h.still i hi hmasked).1, rfl⟩
  | task choice => exact h.task hc hf choice

theorem FirstAt.step (hf : FirstAt code s) (e : ConsumerEvent α) :
    FirstAt code (s.step code headFirst e) := by
  cases e with
  | produce items locks =>
    simp only [Consumer.step]
    split
    next => exact hf
    next => exact hf
  | preempt =>
    simp only [Consumer.step]
    split
    next => exact hf
    next => exact hf
  | resume => exact hf
  | task choice => exact hf.task choice

theorem Inv.run (hc : Checks code facts) (h : Inv headFirst facts s) (hf : FirstAt code s)
    (hs : 2 ≤ size) (events : List (ConsumerEvent α)) :
    Inv headFirst facts (events.foldl (Consumer.step code headFirst) s) := by
  induction events generalizing s with
  | nil => exact h
  | cons e events ih => exact ih (h.step hc hf hs e) (hf.step e)

/-- A comparison and the read of the item that no event comes between are `Ringbuffer::read`. -/
theorem task_read {next : Nat} (ha : code[s.point]? = some (.read next)) (hcpu : s.onCpu = true)
    (hfirst : s.first = none) (a b : Bool) :
    (((s.task code headFirst a).task code headFirst b).ring = s.ring.read.2) ∧
      (((s.task code headFirst a).task code headFirst b).failed =
        (s.failed || s.ring.read.1.isNone)) := by
  have hruns : ¬(!s.onCpu) = true := by simp [hcpu]
  have hload : s.task code headFirst a = { s with first := some (indices headFirst s.ring).1 } := by
    unfold Consumer.task
    rw [if_neg hruns]
    simp only [ha, Consumer.compare, hfirst]
  rw [hload]
  unfold Consumer.task
  rw [if_neg hruns]
  simp only [ha, Consumer.compare, Ringbuffer.read, isEmpty_indices headFirst s.ring]
  split
  next => simp
  next => simp

end Consumer

/-- The places where a read of a ring is unwrapped. -/
inductive UnwrapSite
  | packetHandler
  | udpRecvMsg
  | icmpRecvMsg
  | ttyRead
deriving DecidableEq

namespace UnwrapSite

open Consumer

def code : UnwrapSite → Program
  | packetHandler => Consumer.packetHandler
  | udpRecvMsg | icmpRecvMsg => recvMsg
  | ttyRead => Consumer.ttyRead

/-- The task starts with interrupts, the gate of system calls disables them. -/
def interrupts : UnwrapSite → Bool
  | packetHandler => true
  | udpRecvMsg | icmpRecvMsg | ttyRead => false

/-- The consumer before its first step. -/
def started {α : Type} {size : Nat} (site : UnwrapSite) (ring : Ringbuffer α size)
    (onCpu restore : Bool) : Consumer α size where
  ring := ring
  point := 0
  first := none
  onCpu := onCpu
  interrupts := site.interrupts
  restore := restore
  failed := false

/-- What is known at the points of the code. -/
def facts : UnwrapSite → List Known
  | packetHandler =>
    [⟨false, false, false⟩, ⟨false, false, false⟩, ⟨false, false, false⟩, ⟨false, false, true⟩,
      ⟨false, false, true⟩, ⟨true, false, true⟩, ⟨false, false, false⟩]
  | udpRecvMsg | icmpRecvMsg =>
    [⟨true, false, false⟩, ⟨true, true, false⟩, ⟨true, true, false⟩, ⟨true, true, false⟩,
      ⟨true, true, false⟩, ⟨true, true, false⟩, ⟨true, true, false⟩, ⟨true, true, false⟩,
      ⟨true, true, true⟩, ⟨true, true, false⟩, ⟨true, false, false⟩, ⟨false, false, false⟩]
  | ttyRead =>
    [⟨true, false, false⟩, ⟨true, false, false⟩, ⟨true, false, false⟩, ⟨true, false, false⟩,
      ⟨true, false, true⟩, ⟨true, false, false⟩, ⟨true, false, false⟩, ⟨false, false, false⟩]

theorem checks (site : UnwrapSite) : Checks site.code site.facts := by
  cases site <;> decide

theorem started_inv {α : Type} {size : Nat} (site : UnwrapSite) {ring : Ringbuffer α size}
    (h : ring.Ok) (headFirst onCpu restore : Bool) :
    Inv headFirst site.facts (site.started ring onCpu restore) := by
  refine ⟨h, ?_, (fun i hi => by cases hi), (fun i hi => by cases hi), rfl⟩
  cases site with
  | packetHandler => exact ⟨(fun hk => by cases hk), (fun hk => by cases hk), fun hk => by cases hk⟩
  | udpRecvMsg => exact ⟨fun _ => rfl, (fun hk => by cases hk), fun hk => by cases hk⟩
  | icmpRecvMsg => exact ⟨fun _ => rfl, (fun hk => by cases hk), fun hk => by cases hk⟩
  | ttyRead => exact ⟨fun _ => rfl, (fun hk => by cases hk), fun hk => by cases hk⟩

/-- Whatever comes between the test and the read, no read that is unwrapped finds a ring empty. -/
theorem unwrap_succeeds {α : Type} {size : Nat} (site : UnwrapSite) (hs : 2 ≤ size)
    (ring : Ringbuffer α size) (h : ring.Ok) (headFirst onCpu restore : Bool)
    (events : List (ConsumerEvent α)) :
    let s := events.foldl (step site.code headFirst) (site.started ring onCpu restore)
    s.failed = false ∧
      ∀ next, site.code[s.point]? = some (.read next) → s.ring.isEmpty = false := by
  intro s
  have hrun : Inv headFirst site.facts s := by
    apply Inv.run site.checks (site.started_inv h headFirst onCpu restore) _ hs events
    exact fun hne => absurd rfl hne
  refine ⟨hrun.sound, fun next hread => ?_⟩
  obtain ⟨hallows, -⟩ := site.checks.at hread
  exact hrun.holds.nonempty hallows.2

theorem unwrap_succeeds_handler :
    2 ≤ 2 ∧ (Ringbuffer.mk (fun _ => 0) 1 1 : Ringbuffer Nat 2).Ok ∧
      let s := [ConsumerEvent.produce [5, 6, 7] false, .task false, .task false, .task false,
        .produce [8] false, .task false].foldl (step packetHandler.code true)
          (packetHandler.started (Ringbuffer.mk (fun _ => 0) 1 1 : Ringbuffer Nat 2) true false)
      s.failed = false ∧
        ∀ next, packetHandler.code[s.point]? = some (.read next) → s.ring.isEmpty = false :=
  ⟨Nat.le_refl 2, ⟨by decide, by decide⟩,
    unwrap_succeeds packetHandler (Nat.le_refl 2) _ ⟨by decide, by decide⟩ true true false _⟩

end UnwrapSite

end UmbraOS
