import UmbraOS.Runs
import UmbraOS.Socket

namespace UmbraOS

/-- What `send` is called with. -/
structure TxFrame where
  bytes : List Byte
  bounded : bytes.length ≤ Socket.maxEthernetFrameSize

/-- The fields of a transmit descriptor that the driver sets. -/
structure TxDescriptor where
  addr : BitVec 64
  length : BitVec 16
  cmd : Byte

/-- How far a call of `send` is: what it writes next. -/
inductive SendPoint
  | idle
  | copyByte (frame : TxFrame) (i : Nat)
  | setLength (frame : TxFrame)
  | setCmd (frame : TxFrame)
  | advanceTail (frame : TxFrame)
  | writeTail (frame : TxFrame)

/-- The transmit side of the driver and of the card. `sent` and `transmitted` are not in the
source: they record the frames of the calls of `send` that have written TDT, and the frames that
the card has transmitted. -/
structure Transmitter where
  tdh : Nat
  tdt : Nat
  txDescriptors : Nat → TxDescriptor
  buffers : BitVec 64 → Memory
  txTail : Nat
  point : SendPoint
  sent : List (List Byte)
  transmitted : List (List Byte)

inductive TransmitEvent
  | call (frame : TxFrame)
  | send
  | hardware

namespace Transmitter

def numTxDescs : Nat := 256

def tdescCmdEop : Byte := 1#8

def tdescCmdIfcs : Byte := 2#8

def tdescCmdRs : Byte := 8#8

/-- `init_transmit`, with the pages it allocates for the buffers. -/
def initTransmit (addr : Nat → BitVec 64) (buffers : BitVec 64 → Memory) : Transmitter where
  tdh := 0
  tdt := 0
  txDescriptors i := ⟨addr i, 0#16, 0#8⟩
  buffers := buffers
  txTail := 0
  point := .idle
  sent := []
  transmitted := []

/-- The bytes that a descriptor stands for. -/
def frameAt (t : Transmitter) (i : Nat) : List Byte :=
  (List.range (t.txDescriptors i).length.toNat).map (t.buffers (t.txDescriptors i).addr)

def updateTail (t : Transmitter) (desc : TxDescriptor) : Nat → TxDescriptor :=
  fun i => if i = t.txTail then desc else t.txDescriptors i

/-- The next step of a call of `send`. -/
def send (t : Transmitter) : Transmitter :=
  let desc := t.txDescriptors t.txTail
  match t.point with
  | .idle => t
  | .copyByte frame i =>
    if h : i < frame.bytes.length then
      { t with
        buffers := fun a =>
          if a = desc.addr then fun j => if j = i then frame.bytes[i] else t.buffers a j
          else t.buffers a
        point := .copyByte frame (i + 1) }
    else { t with point := .setLength frame }
  | .setLength frame =>
    { t with
      txDescriptors := t.updateTail { desc with length := BitVec.ofNat 16 frame.bytes.length }
      point := .setCmd frame }
  | .setCmd frame =>
    { t with
      txDescriptors :=
        t.updateTail { desc with cmd := tdescCmdEop ||| tdescCmdIfcs ||| tdescCmdRs }
      point := .advanceTail frame }
  | .advanceTail frame =>
    { t with txTail := (t.txTail + 1) % numTxDescs, point := .writeTail frame }
  | .writeTail frame =>
    { t with tdt := t.txTail, point := .idle, sent := t.sent ++ [frame.bytes] }

/-- The card takes the descriptor at the head. -/
def hardware (t : Transmitter) : Transmitter :=
  if t.tdh = t.tdt then t
  else { t with
    tdh := (t.tdh + 1) % numTxDescs
    transmitted := t.transmitted ++ [t.frameAt t.tdh] }

/-- Interrupts are disabled while `send` runs. -/
def step (t : Transmitter) : TransmitEvent → Transmitter
  | .call frame =>
    match t.point with
    | .idle => { t with point := .copyByte frame 0 }
    | _ => t
  | .send => t.send
  | .hardware => t.hardware

/-- The frames of the descriptors from TDH up to TDT. -/
def held (t : Transmitter) : List (List Byte) :=
  (List.range ((t.tdt + numTxDescs - t.tdh) % numTxDescs)).map fun i =>
    t.frameAt ((t.tdh + i) % numTxDescs)

/-- What was sent has been transmitted or is held by the ring, in order. -/
def Delivered (t : Transmitter) : Prop := t.sent = t.transmitted ++ t.held

/-- A call of `send` does not fill the ring. -/
def Room (t : Transmitter) : TransmitEvent → Prop
  | .send =>
    match t.point with
    | .writeTail _ => t.txTail ≠ t.tdh
    | _ => True
  | _ => True

/-- The buffer at an address begins with the bytes. -/
def Copied (buffers : BitVec 64 → Memory) (a : BitVec 64) (bytes : List Byte) (n : Nat) : Prop :=
  ∀ i, i < n → buffers a i = bytes.getD i 0#8

/-- The descriptor and its buffer stand for the bytes. -/
structure Carries (buffers : BitVec 64 → Memory) (desc : TxDescriptor) (bytes : List Byte) :
    Prop where
  length : desc.length.toNat = bytes.length
  copied : Copied buffers desc.addr bytes bytes.length

/-- What a call of `send` knows at each point. -/
def Progress (t : Transmitter) : Prop :=
  match t.point with
  | .idle => t.txTail = t.tdt
  | .copyByte frame i =>
    t.txTail = t.tdt ∧ i ≤ frame.bytes.length ∧
      Copied t.buffers (t.txDescriptors t.tdt).addr frame.bytes i
  | .setLength frame =>
    t.txTail = t.tdt ∧
      Copied t.buffers (t.txDescriptors t.tdt).addr frame.bytes frame.bytes.length
  | .setCmd frame | .advanceTail frame =>
    t.txTail = t.tdt ∧ Carries t.buffers (t.txDescriptors t.tdt) frame.bytes
  | .writeTail frame =>
    t.txTail = (t.tdt + 1) % numTxDescs ∧
      Carries t.buffers (t.txDescriptors t.tdt) frame.bytes

/-- The driver is at most 255 frames ahead of the card, and the frames between are in the
descriptors. -/
structure Ring (addr : Nat → BitVec 64) (t : Transmitter) : Prop where
  behind : t.transmitted.length ≤ t.sent.length
  room : t.sent.length ≤ t.transmitted.length + 255
  tdh : t.tdh = t.transmitted.length % numTxDescs
  tdt : t.tdt = t.sent.length % numTxDescs
  addrs : ∀ i, (t.txDescriptors i).addr = addr i
  done : t.transmitted = t.sent.take t.transmitted.length
  waiting : ∀ i bytes, t.transmitted.length ≤ i → t.sent[i]? = some bytes →
    Carries t.buffers (t.txDescriptors (i % numTxDescs)) bytes
  progress : Progress t

variable {addr : Nat → BitVec 64} {t : Transmitter}

theorem ring_initTransmit (buffers : BitVec 64 → Memory) : Ring addr (initTransmit addr buffers) where
  behind := Nat.le_refl _
  room := Nat.zero_le _
  tdh := rfl
  tdt := rfl
  addrs _ := rfl
  done := rfl
  waiting i bytes _ h := by cases h
  progress := rfl

/-- The card reads back the bytes that were sent. -/
theorem Carries.frameAt {i : Nat} {bytes : List Byte}
    (h : Carries t.buffers (t.txDescriptors i) bytes) : t.frameAt i = bytes := by
  unfold Transmitter.frameAt
  apply List.ext_getElem
  · rw [List.length_map, List.length_range, h.length]
  · intro j hj hj'
    have hbyte := h.copied j hj'
    rw [List.getElem_map, List.getElem_range]
    rw [List.getD_eq_getElem?_getD, List.getElem?_eq_getElem hj', Option.getD_some] at hbyte
    exact hbyte

theorem Ring.held_eq (hr : Ring addr t) : t.held = t.sent.drop t.transmitted.length := by
  have hbehind := hr.behind
  have hroom := hr.room
  have hcount : (t.tdt + numTxDescs - t.tdh) % numTxDescs =
      t.sent.length - t.transmitted.length := by
    rw [hr.tdt, hr.tdh]
    simp only [numTxDescs]
    omega
  unfold held
  apply List.ext_getElem
  · rw [List.length_map, List.length_range, List.length_drop, hcount]
  · intro i hi hi'
    have hlt : t.transmitted.length + i < t.sent.length := by
      rw [List.length_drop] at hi'
      omega
    have hcarries := hr.waiting (t.transmitted.length + i) _ (Nat.le_add_right _ _)
      (List.getElem?_eq_getElem hlt)
    have hindex : (t.tdh + i) % numTxDescs = (t.transmitted.length + i) % numTxDescs := by
      rw [hr.tdh, Nat.mod_add_mod]
    rw [List.getElem_map, List.getElem_range, List.getElem_drop, hindex]
    exact hcarries.frameAt

theorem Ring.delivered (hr : Ring addr t) : Delivered t := by
  unfold Delivered
  rw [hr.held_eq, hr.done, List.length_take, Nat.min_eq_left hr.behind, List.take_append_drop]

/-- The descriptor at the tail holds no frame that waits. -/
theorem Ring.apart (hr : Ring addr t) {i : Nat} (hi : t.transmitted.length ≤ i)
    (hlt : i < t.sent.length) : i % numTxDescs ≠ t.tdt := by
  have hroom := hr.room
  rw [hr.tdt]
  simp only [numTxDescs]
  omega

theorem Ring.tdt_lt (hr : Ring addr t) : t.tdt < numTxDescs := by
  rw [hr.tdt]
  exact Nat.mod_lt _ (by decide)

/-- The steps of `send` before the register is written touch only the descriptor at the tail and its
buffer. -/
theorem Ring.fill (hr : Ring addr t)
    (hinj : ∀ i j, i < numTxDescs → j < numTxDescs → addr i = addr j → i = j)
    {txDescriptors : Nat → TxDescriptor} {buffers : BitVec 64 → Memory} {txTail : Nat}
    {point : SendPoint} (haddrs : ∀ i, (txDescriptors i).addr = addr i)
    (hdescs : ∀ i, i ≠ t.tdt → txDescriptors i = t.txDescriptors i)
    (hbuffers : ∀ a, a ≠ addr t.tdt → buffers a = t.buffers a)
    (hp : Progress { t with txDescriptors, buffers, txTail, point }) :
    Ring addr { t with txDescriptors, buffers, txTail, point } where
  behind := hr.behind
  room := hr.room
  tdh := hr.tdh
  tdt := hr.tdt
  addrs := haddrs
  done := hr.done
  waiting i bytes hi hf := by
    have hne := hr.apart hi (List.getElem?_eq_some_iff.mp hf).1
    have hcarries := hr.waiting i bytes hi hf
    have haddr : addr (i % numTxDescs) ≠ addr t.tdt := fun he =>
      hne (hinj _ _ (Nat.mod_lt _ (by decide)) hr.tdt_lt he)
    refine ⟨?_, fun j hj => ?_⟩
    · simp only [hdescs _ hne]
      exact hcarries.length
    · have hbyte := hcarries.copied j hj
      simp only [hdescs _ hne]
      rw [hr.addrs] at hbyte ⊢
      rw [hbuffers _ haddr]
      exact hbyte
  progress := hp

theorem updateTail_self (t : Transmitter) (desc : TxDescriptor) :
    t.updateTail desc t.txTail = desc := if_pos rfl

theorem updateTail_ne (t : Transmitter) (desc : TxDescriptor) {i : Nat} (h : i ≠ t.txTail) :
    t.updateTail desc i = t.txDescriptors i := if_neg h

theorem Ring.updateTail (hr : Ring addr t) {desc : TxDescriptor}
    (ha : desc.addr = (t.txDescriptors t.txTail).addr) (i : Nat) :
    (t.updateTail desc i).addr = addr i := by
  by_cases hi : i = t.txTail
  · rw [hi, updateTail_self, ha]
    exact hr.addrs _
  · rw [updateTail_ne t desc hi]
    exact hr.addrs i

/-- The write of TDT sends the frame of the descriptor at the tail. -/
theorem Ring.advance (hr : Ring addr t) {bytes : List Byte} (htail : t.txTail = (t.tdt + 1) % numTxDescs)
    (hcarries : Carries t.buffers (t.txDescriptors t.tdt) bytes) (hroom : t.txTail ≠ t.tdh) :
    Ring addr { t with tdt := t.txTail, point := .idle, sent := t.sent ++ [bytes] } := by
  have hbehind := hr.behind
  have hlast := hr.room
  have hmore : t.sent.length + 1 ≤ t.transmitted.length + 255 := by
    simp only [htail, hr.tdt, hr.tdh, numTxDescs] at hroom
    omega
  refine ⟨?_, ?_, hr.tdh, ?_, hr.addrs, ?_, ?_, rfl⟩
  · rw [List.length_append]
    exact Nat.le_add_right_of_le hbehind
  · rw [List.length_append]
    exact hmore
  · rw [List.length_append, List.length_singleton, htail, hr.tdt, Nat.mod_add_mod]
  · rw [List.take_append_of_le_length hbehind]
    exact hr.done
  · intro i bytes' hi hf
    rcases getElem?_concat_eq_some.mp hf with hold | ⟨rfl, rfl⟩
    · exact hr.waiting i bytes' hi hold
    · rw [← hr.tdt]
      exact hcarries

/-- A step of `send` that leaves room in the ring keeps it. -/
theorem Ring.send (hr : Ring addr t)
    (hinj : ∀ i j, i < numTxDescs → j < numTxDescs → addr i = addr j → i = j)
    (hroom : t.Room .send) : Ring addr t.send := by
  have hprogress := hr.progress
  unfold Progress at hprogress
  unfold Room at hroom
  unfold Transmitter.send
  cases hpoint : t.point with
  | idle => exact hr
  | copyByte frame i =>
    rw [hpoint] at hprogress
    obtain ⟨htail, hi, hcopied⟩ := hprogress
    simp only
    split
    next hlt =>
      have haddr : (t.txDescriptors t.txTail).addr = addr t.tdt := by
        rw [htail]
        exact hr.addrs _
      refine hr.fill hinj hr.addrs (fun _ _ => rfl) (fun a ha => ?_) ⟨htail, hlt, fun j hj => ?_⟩
      · rw [haddr, if_neg ha]
      · simp only
        rw [htail, if_pos rfl]
        split
        next hj' => rw [hj', List.getD_eq_getElem?_getD, List.getElem?_eq_getElem hlt, Option.getD_some]
        next hj' => exact hcopied j (by omega)
    next hge =>
      have hend : i = frame.bytes.length := by omega
      refine hr.fill hinj hr.addrs (fun _ _ => rfl) (fun _ _ => rfl) ⟨htail, ?_⟩
      rw [← hend]
      exact hcopied
  | setLength frame =>
    rw [hpoint] at hprogress
    obtain ⟨htail, hcopied⟩ := hprogress
    have hother : ∀ i, i ≠ t.tdt → i ≠ t.txTail := fun i hi => by rwa [htail]
    refine hr.fill hinj (hr.updateTail rfl) (fun i hi => updateTail_ne t _ (hother i hi))
      (fun _ _ => rfl) ⟨htail, ?_, ?_⟩
    · simp only
      rw [← htail, updateTail_self, BitVec.toNat_ofNat]
      have hbounded := frame.bounded
      simp only [Socket.maxEthernetFrameSize] at hbounded
      exact Nat.mod_eq_of_lt (by omega)
    · simp only
      rw [← htail, updateTail_self, htail]
      exact hcopied
  | setCmd frame =>
    rw [hpoint] at hprogress
    obtain ⟨htail, hcarries⟩ := hprogress
    have hother : ∀ i, i ≠ t.tdt → i ≠ t.txTail := fun i hi => by rwa [htail]
    refine hr.fill hinj (hr.updateTail rfl) (fun i hi => updateTail_ne t _ (hother i hi))
      (fun _ _ => rfl) ⟨htail, ?_, ?_⟩
    · simp only
      rw [← htail, updateTail_self, htail]
      exact hcarries.length
    · simp only
      rw [← htail, updateTail_self, htail]
      exact hcarries.copied
  | advanceTail frame =>
    rw [hpoint] at hprogress
    obtain ⟨htail, hcarries⟩ := hprogress
    refine hr.fill hinj hr.addrs (fun _ _ => rfl) (fun _ _ => rfl) ⟨?_, hcarries⟩
    rw [htail]
  | writeTail frame =>
    rw [hpoint] at hprogress hroom
    exact hr.advance hprogress.1 hprogress.2 hroom

/-- The card takes the oldest frame that waits. -/
theorem Ring.hardware (hr : Ring addr t) : Ring addr t.hardware := by
  unfold Transmitter.hardware
  split
  next => exact hr
  next hne =>
    have hbehind := hr.behind
    have hroom := hr.room
    have hlt : t.transmitted.length < t.sent.length := by
      by_contra hge
      apply hne
      rw [hr.tdh, hr.tdt, Nat.le_antisymm hbehind (Nat.le_of_not_lt hge)]
    have hnext := hr.waiting _ _ (Nat.le_refl _) (List.getElem?_eq_getElem hlt)
    have hframe : t.frameAt t.tdh = t.sent[t.transmitted.length] := by
      rw [hr.tdh]
      exact hnext.frameAt
    refine ⟨?_, ?_, ?_, hr.tdt, hr.addrs, ?_, ?_, hr.progress⟩
    · rw [List.length_append]
      exact hlt
    · rw [List.length_append]
      exact Nat.le_trans hroom (by rw [List.length_singleton]; omega)
    · rw [List.length_append, List.length_singleton, hr.tdh, Nat.mod_add_mod]
    · rw [List.length_append, List.length_singleton, List.take_add_one,
        List.getElem?_eq_getElem hlt, hframe, ← hr.done, Option.toList_some]
    · intro i bytes hi hf
      rw [List.length_append] at hi
      exact hr.waiting i bytes (Nat.le_of_succ_le hi) hf

theorem Ring.step (hr : Ring addr t)
    (hinj : ∀ i j, i < numTxDescs → j < numTxDescs → addr i = addr j → i = j)
    {e : TransmitEvent} (hroom : t.Room e) : Ring addr (t.step e) := by
  cases e with
  | call frame =>
    have hprogress := hr.progress
    unfold Progress at hprogress
    unfold Transmitter.step
    cases hpoint : t.point with
    | idle =>
      rw [hpoint] at hprogress
      refine hr.fill hinj hr.addrs (fun _ _ => rfl) (fun _ _ => rfl) ?_
      exact ⟨hprogress, Nat.zero_le _, fun j hj => absurd hj (Nat.not_lt_zero j)⟩
    | _ => exact hr
  | send => exact hr.send hinj hroom
  | hardware => exact hr.hardware

/-- When the register is set to the head, the frames of a full ring are lost. -/
theorem Ring.overruns (hr : Ring addr t) {e : TransmitEvent} (hfull : ¬t.Room e) :
    ¬Delivered (t.step e) := by
  have hdelivered := hr.delivered
  unfold Delivered at hdelivered
  unfold Room at hfull
  cases e with
  | call frame => exact absurd trivial hfull
  | hardware => exact absurd trivial hfull
  | send =>
    cases hpoint : t.point with
    | writeTail frame =>
      rw [hpoint] at hfull
      have hempty : t.txTail = t.tdh := not_not.mp hfull
      have hstep : t.step .send =
          { t with tdt := t.txTail, point := .idle, sent := t.sent ++ [frame.bytes] } := by
        simp only [Transmitter.step, Transmitter.send, hpoint]
      have hheld : (t.step .send).held = [] := by
        rw [hstep]
        unfold held
        simp only [hempty]
        rw [Nat.add_sub_cancel_left, Nat.mod_self, List.range_zero, List.map_nil]
      intro h
      unfold Delivered at h
      rw [hheld, hstep, List.append_nil] at h
      have hlength := congrArg List.length h
      have hbehind := hr.behind
      simp only [List.length_append, List.length_singleton] at hlength
      omega
    | _ =>
      rw [hpoint] at hfull
      exact absurd trivial hfull

/-- The frames that are sent are those that have been transmitted and those in the ring, all along
a run, exactly when no call of `send` fills the ring. -/
theorem send_delivers_iff {addr : Nat → BitVec 64} {buffers : BitVec 64 → Memory}
    {events : List TransmitEvent}
    (hinj : ∀ i j, i < numTxDescs → j < numTxDescs → addr i = addr j → i = j) :
    (∀ done, done <+: events → Delivered (done.foldl step (initTransmit addr buffers))) ↔
      StepsMeet step Room (initTransmit addr buffers) events :=
  stepsMeet_iff (fun _ _ hr hroom => hr.step hinj hroom) (fun _ hr => hr.delivered)
    (fun _ _ hr hfull => hr.overruns hfull) (ring_initTransmit buffers)

/-- The pages of the buffers, one after another. -/
def pagesFrom (i : Nat) : BitVec 64 := BitVec.ofNat 64 (4096 * (i + 1))

theorem pagesFrom_inj (i j : Nat) (hi : i < numTxDescs) (hj : j < numTxDescs)
    (h : pagesFrom i = pagesFrom j) : i = j := by
  have hnat := congrArg BitVec.toNat h
  simp only [numTxDescs] at hi hj
  rw [pagesFrom, pagesFrom, BitVec.toNat_ofNat, BitVec.toNat_ofNat, Nat.mod_eq_of_lt (by omega),
    Nat.mod_eq_of_lt (by omega)] at hnat
  omega

/-- A call of `send` that the card does not interrupt. -/
def sendEvents (frame : TxFrame) : List TransmitEvent :=
  .call frame :: List.replicate (frame.bytes.length + 5) .send

/-- A frame of one byte is sent and transmitted. -/
theorem send_delivers_one :
    (∀ i j, i < numTxDescs → j < numTxDescs → pagesFrom i = pagesFrom j → i = j) ∧
      ((∀ done, done <+: sendEvents ⟨[7#8], by decide⟩ ++ [.hardware] →
        Delivered (done.foldl step (initTransmit pagesFrom fun _ _ => 0#8))) ↔
      StepsMeet step Room (initTransmit pagesFrom fun _ _ => 0#8)
        (sendEvents ⟨[7#8], by decide⟩ ++ [.hardware])) :=
  ⟨pagesFrom_inj, send_delivers_iff pagesFrom_inj⟩

def emptyFrame : TxFrame := ⟨[], Nat.zero_le _⟩

/-- The ring after a number of calls, when the card has taken nothing. -/
structure Untaken (n : Nat) (t : Transmitter) : Prop where
  tdh : t.tdh = 0
  tdt : t.tdt = n % numTxDescs
  txTail : t.txTail = n % numTxDescs
  point : t.point = .idle
  sent : t.sent.length = n
  transmitted : t.transmitted = []

theorem Untaken.send {n : Nat} (h : Untaken n t) :
    Untaken (n + 1) ((sendEvents emptyFrame).foldl step t) := by
  have hevents : sendEvents emptyFrame =
      [.call emptyFrame, .send, .send, .send, .send, .send] := rfl
  rw [hevents]
  constructor
  all_goals
    simp only [List.foldl_cons, List.foldl_nil, step, h.point, Transmitter.send, emptyFrame,
      List.length_nil, Nat.lt_irrefl, dite_false]
  · exact h.tdh
  · rw [h.txTail, Nat.mod_add_mod]
  · rw [h.txTail, Nat.mod_add_mod]
  · rw [List.length_append, h.sent, List.length_singleton]
  · exact h.transmitted

theorem untaken_sends (buffers : BitVec 64 → Memory) (n : Nat) :
    Untaken n ((List.replicate n (sendEvents emptyFrame)).flatten.foldl step
      (initTransmit addr buffers)) := by
  induction n with
  | zero => exact ⟨rfl, rfl, rfl, rfl, rfl, rfl⟩
  | succ n ih =>
    rw [List.replicate_succ', List.flatten_append, List.foldl_append]
    have hlast : [sendEvents emptyFrame].flatten = sendEvents emptyFrame := List.append_nil _
    rw [hlast]
    exact ih.send

/-- After 256 calls the full ring looks empty. -/
theorem send_overruns :
    ¬∀ (addr : Nat → BitVec 64) (buffers : BitVec 64 → Memory) (events : List TransmitEvent),
      (∀ i j, i < numTxDescs → j < numTxDescs → addr i = addr j → i = j) →
      ∀ done, done <+: events → Delivered (done.foldl step (initTransmit addr buffers)) := by
  intro h
  have hdelivered := h pagesFrom (fun _ _ => 0#8) _ pagesFrom_inj _
    (List.prefix_refl (List.replicate 256 (sendEvents emptyFrame)).flatten)
  have hsent : Untaken 256 ((List.replicate 256 (sendEvents emptyFrame)).flatten.foldl step
    (initTransmit pagesFrom fun _ _ => 0#8)) := untaken_sends _ 256
  obtain ⟨t, ht⟩ : ∃ t, (List.replicate 256 (sendEvents emptyFrame)).flatten.foldl step
    (initTransmit pagesFrom fun _ _ => 0#8) = t := ⟨_, rfl⟩
  rw [ht] at hdelivered hsent
  unfold Delivered held at hdelivered
  have hlength := hsent.sent
  rw [hdelivered, hsent.transmitted, hsent.tdh, hsent.tdt] at hlength
  simp [numTxDescs] at hlength

end Transmitter

end UmbraOS
