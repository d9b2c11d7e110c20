import UmbraOS.E1000
import UmbraOS.Runs

namespace UmbraOS

def Socket.Packet.bytes (p : Socket.Packet) : List Byte := (List.range p.length).map p.data

/-- Whether the packet of the current descriptor has been written, at each point. -/
def HandlerPoint.written : HandlerPoint → Nat
  | .writeTail => 1
  | _ => 0

namespace E1000

/-- The contents of the frames that the driver takes. -/
def taken (frames : List Frame) : List (List Byte) :=
  (frames.map Frame.bytes).filter fun bytes => bytes.length ≤ Socket.maxEthernetFrameSize

/-- The buffer of a descriptor and its length give a frame. -/
structure Carries (buffers : BitVec 64 → Memory) (desc : RxDescriptor) (frame : Frame) : Prop where
  length : desc.length = BitVec.ofNat 16 frame.bytes.length
  bytes : ∀ i, i < frame.bytes.length → buffers desc.addr i = frame.bytes.getD i 0#8

/-- What a run of the handler knows at each point, when `c` frames have been returned to the
card. -/
def Progress (addr : Nat → BitVec 64) (e : E1000) (c : Nat) : Prop :=
  match e.point with
  | .idle => e.icrRxt0 = false → c = e.stored.length
  | .readIcr => e.icrRxt0 = false → c = e.stored.length
  | .readTail => True
  | .compareHead => e.rxTail = e.rdt
  | .readDescriptor => e.rxTail = c % numRxDescs
  | .copyBuffer desc => e.rxTail = c % numRxDescs ∧ desc.addr = addr (c % numRxDescs) ∧
      ∃ frame, e.stored[c]? = some frame ∧ Carries e.buffers desc frame
  | .writeTail => e.rxTail = c % numRxDescs ∧ c < e.stored.length

/-- The card is at most 255 frames ahead of the driver, and the frames between are in the
descriptors, marked as done. -/
structure Ring (addr : Nat → BitVec 64) (e : E1000) (c : Nat) : Prop where
  behind : c ≤ e.stored.length
  room : e.stored.length ≤ c + 255
  rdh : e.rdh = e.stored.length % numRxDescs
  rdt : e.rdt = (c + 255) % numRxDescs
  addrs : ∀ i, (e.rxDescriptors i).addr = addr i
  done : ∀ i frame, c ≤ i → e.stored[i]? = some frame →
    (e.rxDescriptors (i % numRxDescs)).status &&& rdescStatusDd ≠ 0#8 ∧
      Carries e.buffers (e.rxDescriptors (i % numRxDescs)) frame
  written : e.written.map Socket.Packet.bytes =
    taken (e.stored.take (c + HandlerPoint.written e.point))
  progress : Progress addr e c

def InRing (addr : Nat → BitVec 64) (e : E1000) : Prop := ∃ c, Ring addr e c

/-- What the driver relies on: the handler never finds the ring full, and when no frame is
waiting, the descriptor that it looks at is not marked as done. -/
def Meets (e : E1000) : E1000Event → Prop
  | .handler =>
    match e.point with
    | .compareHead => e.rxTail ≠ e.rdh
    | .readDescriptor => e.rxTail = e.rdh →
        (e.rxDescriptors e.rxTail).status &&& rdescStatusDd = 0#8
    | _ => True
  | _ => True

variable {addr : Nat → BitVec 64} {e : E1000} {c : Nat}

theorem ring_initReceive (buffers : BitVec 64 → Memory) (cache : Ringbuffer Socket.Packet 64) :
    Ring addr (initReceive addr buffers cache) 0 where
  behind := Nat.zero_le _
  room := Nat.zero_le _
  rdh := rfl
  rdt := rfl
  addrs _ := rfl
  done i frame _ h := by cases h
  written := rfl
  progress _ := rfl

theorem taken_append (xs ys : List Frame) : taken (xs ++ ys) = taken xs ++ taken ys := by
  unfold taken
  rw [List.map_append, List.filter_append]

/-- The bytes copied out of a buffer are those of the frame in it. -/
theorem Carries.copy {desc : RxDescriptor} {frame : Frame} (h : Carries e.buffers desc frame) :
    desc.length.toNat = frame.bytes.length ∧
      Socket.Packet.bytes ⟨e.buffers desc.addr, desc.length.toNat⟩ = frame.bytes := by
  have hlen : desc.length.toNat = frame.bytes.length := by
    rw [h.length, BitVec.toNat_ofNat]
    exact Nat.mod_eq_of_lt frame.short
  refine ⟨hlen, ?_⟩
  unfold Socket.Packet.bytes
  apply List.ext_getElem
  · rw [List.length_map, List.length_range, hlen]
  · intro i hi hi'
    have hbyte := h.bytes i hi'
    rw [List.getElem_map, List.getElem_range]
    rw [List.getD_eq_getElem?_getD, List.getElem?_eq_getElem hi', Option.getD_some] at hbyte
    exact hbyte

/-- A step that only moves the handler and its registers. -/
theorem Ring.move (hr : Ring addr e c) {rxTail : Nat} {icrRxt0 : Bool} {point : HandlerPoint}
    (hw : point.written = e.point.written)
    (hp : Progress addr { e with rxTail, icrRxt0, point } c) :
    Ring addr { e with rxTail, icrRxt0, point } c where
  behind := hr.behind
  room := hr.room
  rdh := hr.rdh
  rdt := hr.rdt
  addrs := hr.addrs
  done := hr.done
  written := by
    rw [hw]
    exact hr.written
  progress := hp

theorem Ring.written_le (hr : Ring addr e c) : c + e.point.written ≤ e.stored.length := by
  have hprogress := hr.progress
  have hbehind := hr.behind
  unfold Progress at hprogress
  cases hpoint : e.point with
  | writeTail =>
    rw [hpoint] at hprogress
    exact hprogress.2
  | _ => exact hbehind

/-- The frames waiting lie in descriptors other than the one at the head. -/
theorem Ring.apart (hr : Ring addr e c) (hfull : e.rdh ≠ e.rdt) {i : Nat} (hi : c ≤ i)
    (hlt : i < e.stored.length) : i % numRxDescs ≠ e.rdh ∧ e.stored.length + 1 ≤ c + 255 := by
  have hroom := hr.room
  rw [hr.rdh, hr.rdt] at hfull
  rw [hr.rdh]
  simp only [numRxDescs] at hfull ⊢
  omega

theorem receive_of_ne (h : e.rdh ≠ e.rdt) (frame : Frame) : e.receive frame =
    ⟨(e.rdh + 1) % numRxDescs, e.rdt, true,
      fun i => if i = e.rdh then ⟨(e.rxDescriptors e.rdh).addr,
        BitVec.ofNat 16 frame.bytes.length, (e.rxDescriptors e.rdh).status ||| rdescStatusDd⟩
        else e.rxDescriptors i,
      fun a => if a = (e.rxDescriptors e.rdh).addr then
        fun i => frame.bytes.getD i (e.buffers a i) else e.buffers a,
      e.rxTail, e.cache, e.point, e.stored ++ [frame], e.written⟩ := by
  rw [receive, if_neg h]

/-- A frame that is received leaves the buffers of the other descriptors alone. -/
theorem receive_carries (h : e.rdh ≠ e.rdt) (frame : Frame) {desc : RxDescriptor} {old : Frame}
    (hc : Carries e.buffers desc old) (hne : desc.addr ≠ (e.rxDescriptors e.rdh).addr) :
    Carries (e.receive frame).buffers desc old := by
  rw [receive_of_ne h]
  refine ⟨hc.length, fun i hi => ?_⟩
  have hb := hc.bytes i hi
  simp only [if_neg hne]
  exact hb

theorem done_or (status : Byte) : (status ||| rdescStatusDd) &&& rdescStatusDd ≠ 0#8 := by
  revert status
  decide

/-- A descriptor that holds a frame has another buffer than the one at the head. -/
theorem Ring.elsewhere (hr : Ring addr e c) (hinj : ∀ i j, i < numRxDescs → j < numRxDescs →
    addr i = addr j → i = j) (hfull : e.rdh ≠ e.rdt) {i : Nat} (hi : c ≤ i)
    (hlt : i < e.stored.length) :
    i % numRxDescs ≠ e.rdh ∧ addr (i % numRxDescs) ≠ (e.rxDescriptors e.rdh).addr := by
  have hne := (hr.apart hfull hi hlt).1
  have hhead : e.rdh < numRxDescs := by
    rw [hr.rdh]
    exact Nat.mod_lt _ (by decide)
  refine ⟨hne, fun he => ?_⟩
  rw [hr.addrs] at he
  exact hne (hinj _ _ (Nat.mod_lt _ (by decide)) hhead he)

theorem Ring.receive_done (hr : Ring addr e c) (hinj : ∀ i j, i < numRxDescs → j < numRxDescs →
    addr i = addr j → i = j) (hfull : e.rdh ≠ e.rdt) (frame : Frame) {i : Nat} {old : Frame}
    (hi : c ≤ i) (hf : (e.stored ++ [frame])[i]? = some old) :
    ((e.receive frame).rxDescriptors (i % numRxDescs)).status &&& rdescStatusDd ≠ 0#8 ∧
      Carries (e.receive frame).buffers ((e.receive frame).rxDescriptors (i % numRxDescs)) old := by
  rcases getElem?_concat_eq_some.mp hf with hold | ⟨rfl, rfl⟩
  · have hlt := (List.getElem?_eq_some_iff.mp hold).1
    obtain ⟨hdone, hc⟩ := hr.done i old hi hold
    obtain ⟨hne, haddr⟩ := hr.elsewhere hinj hfull hi hlt
    rw [← hr.addrs (i % numRxDescs)] at haddr
    have hkept := receive_carries hfull frame hc haddr
    rw [receive_of_ne hfull] at hkept ⊢
    simp only [if_neg hne]
    exact ⟨hdone, hkept⟩
  · rw [receive_of_ne hfull, ← hr.rdh]
    simp only [if_true]
    refine ⟨done_or _, rfl, fun i hi => ?_⟩
    simp only [if_true]
    rw [List.getD_eq_getElem?_getD, List.getD_eq_getElem?_getD,
      List.getElem?_eq_getElem hi, Option.getD_some, Option.getD_some]

theorem Ring.receive_progress (hr : Ring addr e c) (hinj : ∀ i j, i < numRxDescs →
    j < numRxDescs → addr i = addr j → i = j) (hfull : e.rdh ≠ e.rdt) (frame : Frame) :
    Progress addr (e.receive frame) c := by
  have hprogress := hr.progress
  have hcarries : ∀ desc old, Carries e.buffers desc old →
      desc.addr ≠ (e.rxDescriptors e.rdh).addr → Carries (e.receive frame).buffers desc old :=
    fun desc old hc hne => receive_carries hfull frame hc hne
  rw [receive_of_ne hfull] at hcarries ⊢
  unfold Progress at hprogress ⊢
  simp only
  cases hpoint : e.point with
  | idle => intro h; cases h
  | readIcr => intro h; cases h
  | readTail => trivial
  | compareHead =>
    rw [hpoint] at hprogress
    exact hprogress
  | readDescriptor =>
    rw [hpoint] at hprogress
    exact hprogress
  | copyBuffer desc =>
    rw [hpoint] at hprogress
    obtain ⟨htail, haddr, old, hf, hc⟩ := hprogress
    have hlt := (List.getElem?_eq_some_iff.mp hf).1
    refine ⟨htail, haddr, old, ?_, hcarries desc old hc ?_⟩
    · rw [List.getElem?_append_left hlt, hf]
    · rw [haddr]
      exact (hr.elsewhere hinj hfull (le_refl _) hlt).2
  | writeTail =>
    rw [hpoint] at hprogress
    refine ⟨hprogress.1, ?_⟩
    rw [List.length_append]
    exact Nat.lt_add_right _ hprogress.2

theorem Ring.receive (hr : Ring addr e c) (hinj : ∀ i j, i < numRxDescs → j < numRxDescs →
    addr i = addr j → i = j) (frame : Frame) : Ring addr (e.receive frame) c := by
  by_cases hfull : e.rdh = e.rdt
  · rw [E1000.receive, if_pos hfull]
    exact hr
  · have hlast : e.stored.length + 1 ≤ c + 255 := by
      have hroom := hr.room
      have hne := hfull
      rw [hr.rdh, hr.rdt] at hne
      simp only [numRxDescs] at hne
      omega
    have hbehind := hr.behind
    have hdone : ∀ i old, c ≤ i → (e.stored ++ [frame])[i]? = some old →
        ((e.receive frame).rxDescriptors (i % numRxDescs)).status &&& rdescStatusDd ≠ 0#8 ∧
          Carries (e.receive frame).buffers ((e.receive frame).rxDescriptors (i % numRxDescs)) old :=
      fun i old hi hf => hr.receive_done hinj hfull frame hi hf
    have hprogress := hr.receive_progress hinj hfull frame
    rw [receive_of_ne hfull] at hdone hprogress ⊢
    refine ⟨?_, ?_, ?_, hr.rdt, ?_, hdone, ?_, hprogress⟩
    · simp only [List.length_append, List.length_singleton]
      omega
    · simp only [List.length_append, List.length_singleton]
      omega
    · simp only [List.length_append, List.length_singleton]
      rw [hr.rdh]
      simp only [numRxDescs]
      omega
    · intro i
      simp only
      split
      next hi => rw [hr.addrs, hi]
      next => exact hr.addrs i
    · simp only
      rw [List.take_append_of_le_length hr.written_le]
      exact hr.written

@[simp] theorem enqueue_stored (e : E1000) (desc : RxDescriptor) :
    (e.enqueue desc).stored = e.stored := by
  unfold E1000.enqueue
  split
  next => rfl
  next => rfl

/-- The packet of the oldest frame that waits is written. -/
theorem Ring.enqueue (hr : Ring addr e c) {desc : RxDescriptor} (hpoint : e.point = .copyBuffer desc) :
    Ring addr { e.enqueue desc with point := .writeTail } c := by
  have hprogress := hr.progress
  unfold Progress at hprogress
  rw [hpoint] at hprogress
  obtain ⟨htail, -, frame, hf, hc⟩ := hprogress
  obtain ⟨hlen, hbytes⟩ := hc.copy
  have hlt := (List.getElem?_eq_some_iff.mp hf).1
  have hwritten : e.written.map Socket.Packet.bytes = taken (e.stored.take c) := by
    rw [hr.written, hpoint]
    rfl
  have htake : e.stored.take (c + 1) = e.stored.take c ++ [frame] := by
    rw [List.take_add_one, hf]
    rfl
  have hnow : taken (e.stored.take (c + 1)) = taken (e.stored.take c) ++ taken [frame] := by
    rw [htake, taken_append]
  unfold E1000.enqueue
  split
  next hshort =>
    refine ⟨hr.behind, hr.room, hr.rdh, hr.rdt, hr.addrs, hr.done, ?_, htail, hlt⟩
    have htaken : taken [frame] = [frame.bytes] :=
      List.filter_cons_of_pos (decide_eq_true (hlen ▸ hshort))
    simp only [List.map_append, List.map_singleton]
    rw [hwritten, hbytes, HandlerPoint.written, hnow, htaken]
  next hlong =>
    refine ⟨hr.behind, hr.room, hr.rdh, hr.rdt, hr.addrs, hr.done, ?_, htail, hlt⟩
    have htaken : taken [frame] = [] :=
      List.filter_cons_of_neg (fun h => hlong (hlen ▸ of_decide_eq_true h))
    simp only
    rw [hwritten, HandlerPoint.written, hnow, htaken, List.append_nil]

/-- A bound on the steps that are left in a run of the handler if no frame arrives. -/
def stepsLeft (e : E1000) (c : Nat) : Nat :=
  match e.point with
  | .idle => 0
  | .readIcr => 5 * (e.stored.length - c) + 5
  | .readTail => 5 * (e.stored.length - c) + 4
  | .compareHead => 5 * (e.stored.length - c) + 3
  | .readDescriptor => 5 * (e.stored.length - c) + 2
  | .copyBuffer _ => 5 * (e.stored.length - c) + 1
  | .writeTail => 5 * (e.stored.length - c)

/-- A run of the handler ends with a step when nothing waits; the other steps come closer to
the end. -/
def Advances (addr : Nat → BitVec 64) (e e' : E1000) (c : Nat) : Prop :=
  e'.point = .idle ∧ e'.stored = e.stored ∧ Ring addr e' e'.stored.length ∨
    ∃ c', Ring addr e' c' ∧ e'.point ≠ .idle ∧ e'.stepsLeft c' < e.stepsLeft c

theorem Ring.handler (hr : Ring addr e c) (hm : e.Meets .handler) (hrun : e.point ≠ .idle) :
    Advances addr e e.handler c := by
  have hprogress := hr.progress
  unfold Progress at hprogress
  unfold Meets at hm
  unfold Advances stepsLeft E1000.handler
  cases hpoint : e.point with
  | idle => exact absurd hpoint hrun
  | readIcr =>
    rw [hpoint] at hprogress
    cases hicr : e.icrRxt0 with
    | true =>
      refine Or.inr ⟨c, hr.move (by rw [hpoint]; rfl) trivial, ?_, ?_⟩
      · intro h; cases h
      · simp only [if_true]
        omega
    | false =>
      have hc : c = e.stored.length := hprogress hicr
      refine Or.inl ⟨rfl, rfl, ?_⟩
      rw [← hc]
      exact hr.move (by rw [hpoint]; rfl) fun _ => hc
  | readTail =>
    refine Or.inr ⟨c, hr.move (by rw [hpoint]; rfl) rfl, ?_, ?_⟩
    · intro h; cases h
    · simp only
      omega
  | compareHead =>
    rw [hpoint] at hprogress hm
    simp only at hprogress hm ⊢
    rw [if_neg hm]
    refine Or.inr ⟨c, hr.move (by rw [hpoint]; rfl) ?_, ?_, ?_⟩
    · unfold Progress
      simp only [hprogress, hr.rdt, numRxDescs]
      omega
    · intro h; cases h
    · simp only
      omega
  | readDescriptor =>
    rw [hpoint] at hprogress hm
    simp only at hprogress hm ⊢
    rcases Nat.lt_or_ge c e.stored.length with hlt | hge
    · -- a frame waits in this descriptor
      obtain ⟨hdone, hcarries⟩ := hr.done c _ (le_refl _) (List.getElem?_eq_getElem hlt)
      rw [hprogress, if_neg hdone]
      refine Or.inr ⟨c, hr.move (by rw [hpoint]; rfl) ?_, ?_, ?_⟩
      · exact ⟨rfl, hr.addrs _, _, List.getElem?_eq_getElem hlt, hcarries.length, hcarries.bytes⟩
      · intro h; cases h
      · simp only
        omega
    · have hc : c = e.stored.length := Nat.le_antisymm hr.behind hge
      have hhead : e.rxTail = e.rdh := by rw [hprogress, hr.rdh, hc]
      rw [if_pos (hm hhead)]
      refine Or.inl ⟨rfl, rfl, ?_⟩
      rw [← hc]
      exact hr.move (by rw [hpoint]; rfl) fun _ => hc
  | copyBuffer desc =>
    refine Or.inr ⟨c, hr.enqueue hpoint, ?_, ?_⟩
    · intro h; cases h
    · simp only [enqueue_stored]
      omega
  | writeTail =>
    rw [hpoint] at hprogress
    obtain ⟨htail, hlt⟩ := hprogress
    have hwritten := hr.written
    rw [hpoint] at hwritten
    have hroom := hr.room
    refine Or.inr ⟨c + 1, ⟨hlt, ?_, hr.rdh, ?_, hr.addrs, ?_, hwritten, trivial⟩, ?_, ?_⟩
    · simp only
      omega
    · simp only [htail, numRxDescs]
      omega
    · intro i old hi hf
      exact hr.done i old (by omega) hf
    · intro h; cases h
    · simp only
      omega

theorem Ring.step (hr : Ring addr e c) (hinj : ∀ i j, i < numRxDescs → j < numRxDescs →
    addr i = addr j → i = j) {event : E1000Event} (hm : e.Meets event) :
    InRing addr (e.step event) := by
  cases event with
  | arrival frame => exact ⟨c, hr.receive hinj frame⟩
  | interrupt =>
    unfold E1000.step
    cases hpoint : e.point with
    | idle =>
      have hprogress := hr.progress
      unfold Progress at hprogress
      rw [hpoint] at hprogress
      exact ⟨c, hr.move (by rw [hpoint]; rfl) hprogress⟩
    | _ => exact ⟨c, hr⟩
  | handler =>
    by_cases hrun : e.point = .idle
    · refine ⟨c, ?_⟩
      unfold E1000.step E1000.handler
      rw [hrun]
      exact hr
    · rcases hr.handler hm hrun with ⟨-, -, hend⟩ | ⟨c', hnext, -, -⟩
      · exact ⟨_, hend⟩
      · exact ⟨c', hnext⟩

theorem handler_idle (h : e.point = .idle) (n : Nat) :
    (List.replicate n .handler).foldl E1000.step e = e := by
  induction n with
  | zero => rfl
  | succ n ih =>
    have hstay : E1000.step e .handler = e := by
      unfold E1000.step E1000.handler
      rw [h]
    rw [List.replicate_succ, List.foldl_cons, hstay, ih]

/-- Without arrivals, a run of the handler comes to its end. -/
theorem Ring.finishes (hr : Ring addr e c) {n : Nat} (hn : e.stepsLeft c ≤ n)
    (hm : StepsMeet E1000.step Meets e (List.replicate n .handler)) :
    ((List.replicate n .handler).foldl E1000.step e).point = .idle := by
  induction n generalizing e c with
  | zero =>
    have hzero : e.stepsLeft c = 0 := Nat.le_zero.mp hn
    have hlt := hr.written_le
    unfold stepsLeft at hzero
    cases hpoint : e.point with
    | idle => exact hpoint
    | writeTail =>
      rw [hpoint] at hzero hlt
      simp only [HandlerPoint.written] at hzero hlt
      omega
    | _ =>
      rw [hpoint] at hzero
      simp only at hzero
      omega
  | succ n ih =>
    by_cases hrun : e.point = .idle
    · rw [handler_idle hrun, hrun]
    · rw [List.replicate_succ, StepsMeet] at hm
      rw [List.replicate_succ, List.foldl_cons]
      rcases hr.handler hm.1 hrun with ⟨hidle, -, -⟩ | ⟨c', hnext, -, hless⟩
      · have hidle' : (E1000.step e .handler).point = .idle := hidle
        rw [handler_idle hidle', hidle']
      · exact ih hnext (by show e.handler.stepsLeft c' ≤ n; omega) hm.2

/-- The last step of a run of the handler. -/
def HandlerEnds (e : E1000) (event : E1000Event) : Prop :=
  e.point ≠ .idle ∧ (e.step event).point = .idle

theorem receive_point (e : E1000) (frame : Frame) : (e.receive frame).point = e.point := by
  unfold E1000.receive
  split
  next => rfl
  next => rfl

/-- At the end of a run of the handler nothing waits. -/
theorem Ring.handlerEnds (hr : Ring addr e c) {event : E1000Event} (hm : e.Meets event)
    (h : HandlerEnds e event) :
    Ring addr (e.step event) (e.step event).stored.length ∧ (e.step event).point = .idle := by
  obtain ⟨hrun, hidle⟩ := h
  refine ⟨?_, hidle⟩
  cases event with
  | arrival frame =>
    have hsame : (e.step (.arrival frame)).point = e.point := receive_point e frame
    exact absurd (hsame.symm.trans hidle) hrun
  | interrupt =>
    have hsame : e.step .interrupt = e := by
      unfold E1000.step
      cases hpoint : e.point with
      | idle => exact absurd hpoint hrun
      | _ => rfl
    rw [hsame] at hidle
    exact absurd hidle hrun
  | handler =>
    rcases hr.handler hm hrun with ⟨-, -, hend⟩ | ⟨c', -, hne, -⟩
    · exact hend
    · exact absurd hidle hne

/-- Along a run of the card and the driver, what was written to the cache are the frames taken
from the card so far, in order. At the end of each run of the handler all frames that the card
stored have been written, and the card can store the next one. -/
structure Delivers (start : E1000) (events : List E1000Event) : Prop where
  inOrder : ∀ done, done <+: events → ∃ k,
    (done.foldl step start).written.map Socket.Packet.bytes =
      taken ((done.foldl step start).stored.take k)
  complete : ∀ done event, done ++ [event] <+: events →
    HandlerEnds (done.foldl step start) event →
    ((done ++ [event]).foldl step start).written.map Socket.Packet.bytes =
        taken ((done ++ [event]).foldl step start).stored ∧
      ((done ++ [event]).foldl step start).rdh ≠ ((done ++ [event]).foldl step start).rdt

/-- In every run whose steps find the ring neither full nor marked by older frames, the driver
delivers what the card stores, and the handler does not run forever on its own. -/
theorem receive_delivers {addr : Nat → BitVec 64} {buffers : BitVec 64 → Memory}
    {cache : Ringbuffer Socket.Packet 64} {events : List E1000Event}
    (hinj : ∀ i j, i < numRxDescs → j < numRxDescs → addr i = addr j → i = j)
    (hm : StepsMeet step Meets (initReceive addr buffers cache) events) :
    Delivers (initReceive addr buffers cache) events ∧ ∃ n,
      StepsMeet step Meets (events.foldl step (initReceive addr buffers cache))
        (List.replicate n .handler) →
      ((List.replicate n .handler).foldl step
        (events.foldl step (initReceive addr buffers cache))).point = .idle := by
  have hkeep : ∀ e event, InRing addr e → e.Meets event → InRing addr (e.step event) :=
    fun e event ⟨c, hr⟩ hmeets => hr.step hinj hmeets
  have hstart : InRing addr (initReceive addr buffers cache) := ⟨0, ring_initReceive buffers cache⟩
  have hring : ∀ done, done <+: events →
      InRing addr (done.foldl step (initReceive addr buffers cache)) := fun done hdone =>
    (hm.of_prefix hdone).invariant hkeep hstart
  refine ⟨⟨?_, ?_⟩, ?_⟩
  · intro done hdone
    obtain ⟨c, hr⟩ := hring done hdone
    exact ⟨_, hr.written⟩
  · intro done event hdone hend
    obtain ⟨c, hr⟩ := hring done ((List.prefix_append done [event]).trans hdone)
    have hmeets := (stepsMeet_append.mp (hm.of_prefix hdone)).2.1
    obtain ⟨hlast, hidle⟩ := hr.handlerEnds hmeets hend
    rw [List.foldl_append, List.foldl_cons, List.foldl_nil]
    have hwritten := hlast.written
    have hhead := hlast.rdh
    have htail := hlast.rdt
    have hnone : HandlerPoint.written .idle = 0 := rfl
    rw [hidle, hnone, Nat.add_zero, List.take_length] at hwritten
    refine ⟨hwritten, ?_⟩
    simp only [numRxDescs] at hhead htail
    omega
  · obtain ⟨c, hr⟩ := hring events (List.prefix_rfl)
    exact ⟨_, fun h => hr.finishes (le_refl _) h⟩

def emptyCache : Ringbuffer Socket.Packet 64 := ⟨fun _ => ⟨fun _ => 0#8, 0⟩, 0, 0⟩

/-- Buffers in consecutive pages. -/
def bufferPages (i : Nat) : BitVec 64 := BitVec.ofNat 64 (4096 * i + 4096)

theorem bufferPages_inj (i j : Nat) (hi : i < numRxDescs) (hj : j < numRxDescs)
    (h : bufferPages i = bufferPages j) : i = j := by
  have hn := congrArg BitVec.toNat h
  unfold bufferPages at hn
  unfold numRxDescs at hi hj
  rw [BitVec.toNat_ofNat, BitVec.toNat_ofNat] at hn
  omega

def smallFrame : Frame := ⟨[1#8, 2#8, 3#8], by decide⟩

/-- A frame that arrives and is handled. -/
def oneFrame : List E1000Event :=
  [.arrival smallFrame, .interrupt, .handler, .handler, .handler, .handler, .handler, .handler,
    .handler, .handler, .handler]

theorem oneFrame_meets :
    StepsMeet step Meets (initReceive bufferPages (fun _ _ => 0#8) emptyCache) oneFrame := by
  refine And.intro trivial (And.intro trivial (And.intro trivial (And.intro trivial ?_)))
  have hfirst : (255 : Nat) ≠ 1 := by decide
  have hwaits : ¬(0 : Nat) = 1 := by decide
  refine And.intro hfirst (And.intro (fun h => absurd h hwaits) ?_)
  exact And.intro trivial (And.intro trivial (And.intro trivial
    (And.intro hwaits (And.intro (fun _ => rfl) trivial))))

theorem oneFrame_delivered :
    Delivers (initReceive bufferPages (fun _ _ => 0#8) emptyCache) oneFrame :=
  (receive_delivers bufferPages_inj oneFrame_meets).1

theorem step_arrival (e : E1000) (frame : Frame) : e.step (.arrival frame) = e.receive frame := rfl

/-- The card after frames of which none was handled. -/
theorem arrivals_fill (start : E1000) (hrdh : start.rdh = 0) (hrdt : start.rdt = 255)
    (hidle : start.point = .idle) (frame : Frame) {n : Nat} (hn : n ≤ 255) {e : E1000}
    (he : (List.replicate n (E1000Event.arrival frame)).foldl step start = e) :
    e.rdh = n ∧ e.rdt = 255 ∧ e.point = .idle ∧ (0 < n → e.icrRxt0 = true) := by
  induction n generalizing e with
  | zero =>
    subst he
    exact ⟨hrdh, hrdt, hidle, fun h => absurd h (Nat.lt_irrefl 0)⟩
  | succ n ih =>
    rw [List.replicate_succ', List.foldl_append, List.foldl_cons, List.foldl_nil] at he
    obtain ⟨hrdh, hrdt, hpoint, -⟩ := ih (by omega) rfl
    have hne : n ≠ 255 := by omega
    rw [← hrdh, ← hrdt] at hne
    rw [step_arrival, receive_of_ne hne] at he
    subst he
    refine ⟨?_, hrdt, hpoint, fun _ => rfl⟩
    simp only [hrdh, numRxDescs]
    omega

/-- A run of the handler that finds the ring full leaves it full. -/
theorem full_stays (hfull : e.rdh = e.rdt) (hidle : e.point = .idle) (hicr : e.icrRxt0 = true) :
    ([E1000Event.interrupt, .handler, .handler].foldl step e).point ≠ .idle ∧
      ([E1000Event.interrupt, .handler, .handler, .handler].foldl step e).point = .idle ∧
      ([E1000Event.interrupt, .handler, .handler, .handler].foldl step e).rdh =
        ([E1000Event.interrupt, .handler, .handler, .handler].foldl step e).rdt := by
  obtain ⟨rdh, rdt, icrRxt0, rxDescriptors, buffers, rxTail, cache, point, stored, written⟩ := e
  simp only at hfull hidle hicr
  subst hfull hidle hicr
  simp [step, E1000.handler]

/-- 255 frames that arrive before the handler runs. -/
def fillRing : List E1000Event := List.replicate 255 (.arrival smallFrame)

theorem fillRing_fills (start : E1000) (hrdh : start.rdh = 0) (hrdt : start.rdt = 255)
    (hidle : start.point = .idle) {e : E1000} (he : fillRing.foldl step start = e) :
    e.rdh = e.rdt ∧ e.point = .idle ∧ e.icrRxt0 = true := by
  unfold fillRing at he
  obtain ⟨hhead, htail, hpoint, hicr⟩ :=
    arrivals_fill start hrdh hrdt hidle smallFrame (le_refl 255) he
  exact ⟨hhead.trans htail.symm, hpoint, hicr (by decide)⟩

theorem fullRing_stuck : ¬Delivers (initReceive bufferPages (fun _ _ => 0#8) emptyCache)
    (fillRing ++ [.interrupt, .handler, .handler, .handler]) := by
  intro h
  have hfill := fillRing_fills (initReceive bufferPages (fun _ _ => 0#8) emptyCache) rfl rfl rfl rfl
  obtain ⟨hfull, hidle, hicr⟩ := hfill
  obtain ⟨hrun, hend, hstuck⟩ := full_stays hfull hidle hicr
  have hsplit : fillRing ++ [.interrupt, .handler, .handler, .handler] =
      fillRing ++ [.interrupt, .handler, .handler] ++ [E1000Event.handler] := by
    rw [List.append_assoc, List.cons_append, List.cons_append, List.cons_append, List.nil_append]
  rw [← List.foldl_append] at hrun hend hstuck
  rw [hsplit] at h hend hstuck
  refine (h.complete _ .handler List.prefix_rfl ⟨hrun, ?_⟩).2 hstuck
  rw [List.foldl_append, List.foldl_cons, List.foldl_nil] at hend
  exact hend

end E1000

end UmbraOS
