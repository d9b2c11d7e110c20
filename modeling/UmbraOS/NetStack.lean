import Mathlib.Data.List.ReduceOption
import UmbraOS.Datagrams
import UmbraOS.UdpRoundTrip

namespace UmbraOS

namespace E1000

/-- The packet that a step writes to the cache. -/
def writes (e : E1000) (event : E1000Event) : Option Socket.Packet :=
  match event, e.point with
  | .handler, .copyBuffer desc =>
    if desc.length.toNat ≤ Socket.maxEthernetFrameSize then
      some ⟨e.buffers desc.addr, desc.length.toNat⟩
    else none
  | _, _ => none

theorem receive_cache (e : E1000) (frame : Frame) :
    (e.receive frame).cache = e.cache ∧ (e.receive frame).written = e.written := by
  unfold receive
  split
  next => exact ⟨rfl, rfl⟩
  next => exact ⟨rfl, rfl⟩

/-- A step changes nothing else of the cache. -/
theorem step_cache (e : E1000) (event : E1000Event) :
    (e.step event).cache = (e.writes event).elim e.cache e.cache.write ∧
      (e.step event).written = e.written ++ (e.writes event).toList := by
  cases event with
  | arrival frame =>
    obtain ⟨hcache, hwritten⟩ := receive_cache e frame
    exact ⟨hcache, hwritten.trans (List.append_nil _).symm⟩
  | interrupt =>
    unfold step writes
    simp only [Option.elim_none, Option.toList_none, List.append_nil]
    split
    next => exact ⟨rfl, rfl⟩
    next => exact ⟨rfl, rfl⟩
  | handler =>
    unfold step handler writes
    simp only
    cases hpoint : e.point with
    | copyBuffer desc =>
      simp only [enqueue]
      split
      next => exact ⟨rfl, rfl⟩
      next => exact ⟨rfl, (List.append_nil _).symm⟩
    | compareHead =>
      simp only
      split
      next => exact ⟨rfl, (List.append_nil _).symm⟩
      next => exact ⟨rfl, (List.append_nil _).symm⟩
    | readDescriptor =>
      simp only
      split
      next => exact ⟨rfl, (List.append_nil _).symm⟩
      next => exact ⟨rfl, (List.append_nil _).symm⟩
    | _ => exact ⟨rfl, (List.append_nil _).symm⟩

end E1000

open Socket

/-- A message that a call has put into a buffer of `len` bytes. -/
structure Message where
  socket : Nat
  len : Nat
  data : List Byte
  src : SockAddr

/-- The message that a packet gives. -/
def Message.Of (m : Message) (p : Nat × UdpPacket) : Prop :=
  m.socket = p.1 ∧ m.data = p.2.data.take (min m.len p.2.length) ∧ m.src = ⟨.inet, p.2.srcPort, p.2.srcIp⟩

/-- A turn of `packet_handler`: the packet it took, and the ports of the sockets then, in the order in
which the sockets were made. -/
structure Turn where
  packet : Packet
  ports : List (BitVec 16)

/-- What a turn has to queue, and for which socket: a datagram goes to the newest socket that has its
port, and is dropped only if none has. -/
def Turn.Queues (t : Turn) (result : Option (Nat × UdpPacket)) : Prop :=
  match datagram t.packet with
  | none => result = none
  | some (port, p) => result = none ∧ port ∉ t.ports ∨
    ∃ n, result = some (n, p) ∧ t.ports[n]? = some port ∧ ∀ m, n < m → t.ports[m]? ≠ some port

/-- The datagrams in these packets that were for the port that socket `n` had then. -/
def datagramsFor (turns : List Turn) (n : Nat) : List UdpPacket :=
  turns.filterMap fun t => (datagram t.packet).bind fun d =>
    if t.ports[n]? = some d.1 then some d.2 else none

/-- The network card, its driver, `packet_handler` and the sockets. `messages` is what the calls of
`recv_msg` have returned. Three fields are not in the source: the turns in which `packet_handler` has
taken a packet from the cache, and the datagrams it has queued and that calls have read, with their
sockets. -/
structure NetStack where
  nic : E1000
  sockets : Sockets
  messages : List Message
  handled : List Turn
  queued : List (Nat × UdpPacket)
  read : List (Nat × UdpPacket)

/-- Sockets are numbered by age. A new one has the port that memory held. -/
inductive NetEvent
  | nic (event : E1000Event)
  | handle
  | socket (port : BitVec 16) (data : Nat → UdpPacket)
  | send (n : Nat) (driver : Option MacAddress) (hdr : MsgHeader) (data : List Byte)
  | recv (n : Nat) (dontWait nonBlock : Bool) (len : Nat)

namespace NetStack

/-- New sockets are put in front. -/
def socketAt (sockets : List UdpSocket) (n : Nat) : Option UdpSocket :=
  if n < sockets.length then sockets[sockets.length - 1 - n]? else none

def setSocket (sockets : List UdpSocket) (n : Nat) (socket : UdpSocket) : List UdpSocket :=
  sockets.modify (sockets.length - 1 - n) fun _ => socket

/-- The ports of the sockets, the oldest first. -/
def portsByAge (sockets : List UdpSocket) : List (BitVec 16) := (sockets.map UdpSocket.port).reverse

/-- The socket that a port leads to. -/
def target (sockets : List UdpSocket) (port : BitVec 16) : Option Nat :=
  (getSocket sockets port).map fun i => sockets.length - 1 - i

/-- The socket and the packet that a turn of `packet_handler` queues. -/
def queues (sockets : List UdpSocket) (packet : Packet) : Option (Nat × UdpPacket) := do
  let (port, p) ← datagram packet
  let n ← target sockets port
  return (n, p)

/-- A turn of `packet_handler`; without a packet it waits. -/
def handle (s : NetStack) : NetStack :=
  match s.nic.cache.read with
  | (none, _) => s
  | (some packet, cache) =>
    { s with
      nic := { s.nic with cache }
      sockets := (handlePacket s.sockets packet).value
      handled := s.handled ++ [⟨packet, portsByAge s.sockets.udp⟩]
      queued := s.queued ++ (queues s.sockets.udp packet).toList }

def setUdp (s : NetStack) (udp : List UdpSocket) : NetStack := { s with sockets := { s.sockets with udp } }

def recv (s : NetStack) (n : Nat) (dontWait nonBlock : Bool) (len : Nat) : NetStack :=
  match socketAt s.sockets.udp n with
  | none => s
  | some socket =>
    let (result, socket') := socket.recvMsg dontWait nonBlock len
    let s := s.setUdp (setSocket s.sockets.udp n socket')
    match result with
    | .message _ data src =>
      { s with
        messages := s.messages ++ [⟨n, len, data, src⟩]
        read := s.read ++ (socket.packets.read.1.map (n, ·)).toList }
    | _ => s

def step (s : NetStack) : NetEvent → NetStack
  | .nic event => { s with nic := s.nic.step event }
  | .handle => s.handle
  | .socket port data => s.setUdp (⟨port, ⟨data, 0, 0⟩⟩ :: s.sockets.udp)
  | .send n driver hdr data =>
    match socketAt s.sockets.udp n with
    | none => s
    | some socket => s.setUdp (setSocket s.sockets.udp n (socket.sendMsg driver hdr data).2.1)
  | .recv n dontWait nonBlock len => s.recv n dontWait nonBlock len

/-- After `E1000::init`, without a socket. -/
def start (addr : Nat → BitVec 64) (buffers : BitVec 64 → Memory) (cache : Nat → Packet) : NetStack where
  nic := E1000.initReceive addr buffers ⟨cache, 0, 0⟩
  sockets := ⟨[], []⟩
  messages := []
  handled := []
  queued := []
  read := []

/-- The steps of the card meet what the driver relies on. -/
def Meets (s : NetStack) : NetEvent → Prop
  | .nic event => s.nic.Meets event
  | _ => True

/-- No ring is full when a packet is written to it. -/
def HasRoom (s : NetStack) : NetEvent → Prop
  | .nic event => s.nic.writes event = none ∨ ¬s.nic.cache.Full
  | .handle => ∀ packet n p socket, s.nic.cache.read.1 = some packet →
      queues s.sockets.udp packet = some (n, p) → socketAt s.sockets.udp n = some socket →
      ¬socket.packets.Full
  | _ => True

/-- Along the way of a datagram nothing is reordered, repeated or invented, and it is queued for the
socket that has its port. -/
structure Ordered (s : NetStack) : Prop where
  cache : s.nic.cache.InOrder s.nic.written (s.handled.map Turn.packet)
  queued : ∃ results, List.Forall₂ Turn.Queues s.handled results ∧ s.queued = results.reduceOption
  rings : ∀ n socket, socketAt s.sockets.udp n = some socket →
    socket.packets.InOrder (historyOf s.queued n) (historyOf s.read n)
  unopened : ∀ p, p ∈ s.queued ∨ p ∈ s.read → p.1 < s.sockets.udp.length
  messages : List.Forall₂ Message.Of s.messages s.read

/-- Nothing is lost in the rings. -/
def Complete (s : NetStack) : Prop :=
  s.nic.cache.Complete s.nic.written (s.handled.map Turn.packet) ∧
    ∀ n socket, socketAt s.sockets.udp n = some socket →
      socket.packets.Complete (historyOf s.queued n) (historyOf s.read n)

section Sockets

variable {udp : List UdpSocket} {n m : Nat} {socket x : UdpSocket}

theorem socketAt_lt (h : socketAt udp n = some socket) : n < udp.length := by
  unfold socketAt at h
  split at h
  next hlt => exact hlt
  next => cases h

theorem socketAt_cons : socketAt (x :: udp) n = if n = udp.length then some x else socketAt udp n := by
  unfold socketAt
  rw [List.length_cons]
  by_cases hn : n = udp.length
  · rw [if_pos hn, if_pos (by omega), show udp.length + 1 - 1 - n = 0 by omega]
    rfl
  · rw [if_neg hn]
    by_cases hlt : n < udp.length
    · rw [if_pos (by omega), if_pos hlt, show udp.length + 1 - 1 - n = udp.length - 1 - n + 1 by omega]
      rfl
    · rw [if_neg (by omega), if_neg hlt]

theorem socketAt_modify {i : Nat} (hi : i < udp.length) (f : UdpSocket → UdpSocket) :
    socketAt (udp.modify i f) n =
      if n = udp.length - 1 - i then (socketAt udp n).map f else socketAt udp n := by
  unfold socketAt
  rw [List.length_modify, List.getElem?_modify]
  by_cases hlt : n < udp.length
  · simp only [if_pos hlt]
    by_cases hn : n = udp.length - 1 - i
    · have hi' : i = udp.length - 1 - n := by omega
      simp only [if_pos hi', if_pos hn]
      rfl
    · have hi' : i ≠ udp.length - 1 - n := by omega
      simp only [if_neg hi', if_neg hn]
      exact Option.map_id'
  · simp only [if_neg hlt]
    split <;> rfl

theorem socketAt_setSocket (hn : n < udp.length) : socketAt (setSocket udp n x) m =
    if m = n then some x else socketAt udp m := by
  unfold setSocket
  rw [socketAt_modify (by omega)]
  by_cases hm : m = n
  · subst hm
    rw [if_pos (by omega), if_pos rfl]
    unfold socketAt
    rw [if_pos hn, List.getElem?_eq_getElem (by omega)]
    rfl
  · by_cases hlt : m < udp.length
    · rw [if_neg (by omega), if_neg hm]
    · unfold socketAt
      simp only [if_neg hlt, if_neg hm]
      split <;> rfl

theorem length_setSocket : (setSocket udp n x).length = udp.length :=
  List.length_modify _ _ _

end Sockets

variable {s : NetStack}

theorem start_ordered (addr : Nat → BitVec 64) (buffers : BitVec 64 → Memory) (cache : Nat → Packet) :
    Ordered (start addr buffers cache) ∧ Complete (start addr buffers cache) := by
  obtain ⟨hin, hcomplete⟩ := Ringbuffer.InOrder.start (show 1 < 64 by decide) cache
  refine ⟨⟨hin, ⟨[], List.Forall₂.nil, rfl⟩, ?_, ?_, List.Forall₂.nil⟩, hcomplete, ?_⟩
  · intro n socket h
    cases h
  · rintro p (h | h)
    · cases h
    · cases h
  · intro n socket h
    cases h

/-- A step of the card. -/
theorem Ordered.nic (h : Ordered s) (event : E1000Event) :
    Ordered { s with nic := s.nic.step event } ∧
      (Complete s → (Complete { s with nic := s.nic.step event } ↔ HasRoom s (.nic event))) := by
  obtain ⟨hcache, hwritten⟩ := E1000.step_cache s.nic event
  cases hw : s.nic.writes event with
  | none =>
    rw [hw] at hcache hwritten
    have hsame : (s.nic.step event).written = s.nic.written := hwritten.trans (List.append_nil _)
    have hring : (s.nic.step event).cache = s.nic.cache := hcache
    refine ⟨⟨?_, h.queued, h.rings, h.unopened, h.messages⟩, fun hc => ?_⟩
    · simp only [hring, hsame]
      exact h.cache
    · unfold Complete HasRoom
      simp only [hring, hsame]
      exact iff_of_true hc (Or.inl hw)
  | some packet =>
    rw [hw] at hcache hwritten
    have hring : (s.nic.step event).cache = s.nic.cache.write packet := hcache
    have hlist : (s.nic.step event).written = s.nic.written ++ [packet] := hwritten
    refine ⟨⟨?_, h.queued, h.rings, h.unopened, h.messages⟩, fun hc => ?_⟩
    · simp only [hring, hlist]
      exact h.cache.write (by decide) packet
    · have hiff := Ringbuffer.complete_write_iff h.cache hc.1 (by decide) packet
      unfold Complete HasRoom
      simp only [hring, hlist, hw]
      rw [hiff]
      constructor
      · intro hnew
        exact Or.inr hnew.1
      · intro hroom
        exact ⟨hroom.resolve_left (by simp), hc.2⟩

theorem target_spec {udp : List UdpSocket} {port : BitVec 16} {n : Nat} (h : target udp port = some n) :
    ∃ i, getSocket udp port = some i ∧ i < udp.length ∧ n = udp.length - 1 - i := by
  obtain ⟨i, hi, rfl⟩ := Option.map_eq_some_iff.mp h
  refine ⟨i, hi, ?_, rfl⟩
  obtain ⟨hlt, _⟩ := List.findIdx?_eq_some_iff_getElem.mp hi
  exact hlt

/-- The sockets after a turn of `packet_handler`. -/
theorem handlePacket_sockets (sockets : Sockets) (packet : Packet) (n : Nat) :
    (handlePacket sockets packet).value.udp.length = sockets.udp.length ∧
    socketAt (handlePacket sockets packet).value.udp n =
      match queues sockets.udp packet with
      | some (m, p) =>
        if n = m then (socketAt sockets.udp n).map fun socket => socket.write p
        else socketAt sockets.udp n
      | none => socketAt sockets.udp n := by
  rw [handlePacket_udp]
  unfold queues
  cases datagram packet with
  | none => exact ⟨rfl, rfl⟩
  | some d =>
    obtain ⟨port, p⟩ := d
    simp only [Option.bind_eq_bind, Option.bind_some, queueDatagram]
    cases htarget : target sockets.udp port with
    | none =>
      have hnone : getSocket sockets.udp port = none := Option.map_eq_none_iff.mp htarget
      rw [hnone]
      exact ⟨rfl, rfl⟩
    | some m =>
      obtain ⟨i, hi, hlt, rfl⟩ := target_spec htarget
      rw [hi]
      exact ⟨List.length_modify _ _ _, socketAt_modify hlt _⟩

/-- A socket whose queue is kept can change otherwise. -/
theorem Ordered.change (h : Ordered s) {n : Nat} {socket socket' : UdpSocket}
    (hn : socketAt s.sockets.udp n = some socket) (hp : socket'.packets = socket.packets) :
    Ordered (s.setUdp (setSocket s.sockets.udp n socket')) ∧
      (Complete s → Complete (s.setUdp (setSocket s.sockets.udp n socket'))) := by
  have hold : ∀ m x, socketAt (NetStack.setSocket s.sockets.udp n socket') m = some x →
      ∃ y, socketAt s.sockets.udp m = some y ∧ x.packets = y.packets := by
    intro m x hx
    rw [socketAt_setSocket (socketAt_lt hn)] at hx
    split at hx
    next he =>
      obtain rfl := Option.some.inj hx
      exact ⟨socket, he ▸ hn, hp⟩
    next => exact ⟨x, hx, rfl⟩
  refine ⟨⟨h.cache, h.queued, ?_, ?_, h.messages⟩, fun hc => ⟨hc.1, ?_⟩⟩
  · intro m x hx
    obtain ⟨y, hy, hxy⟩ := hold m x hx
    rw [hxy]
    exact h.rings m y hy
  · intro p hp
    have hlt := h.unopened p hp
    exact lt_of_lt_of_eq hlt length_setSocket.symm
  · intro m x hx
    obtain ⟨y, hy, hxy⟩ := hold m x hx
    rw [hxy]
    exact hc.2 m y hy

/-- A new socket has an empty queue. -/
theorem Ordered.socket (h : Ordered s) (port : BitVec 16) (data : Nat → UdpPacket) :
    Ordered (s.step (.socket port data)) ∧ (Complete s → Complete (s.step (.socket port data))) := by
  obtain ⟨hin, hcomplete⟩ := Ringbuffer.InOrder.start (show 1 < 64 by decide) data
  have hqueued : historyOf s.queued s.sockets.udp.length = [] :=
    historyOf_none fun p hp => Nat.ne_of_lt (h.unopened p (Or.inl hp))
  have hread : historyOf s.read s.sockets.udp.length = [] :=
    historyOf_none fun p hp => Nat.ne_of_lt (h.unopened p (Or.inr hp))
  have hold : ∀ n x, socketAt (⟨port, ⟨data, 0, 0⟩⟩ :: s.sockets.udp) n = some x →
      n = s.sockets.udp.length ∧ x = ⟨port, ⟨data, 0, 0⟩⟩ ∨ socketAt s.sockets.udp n = some x := by
    intro n x hx
    rw [socketAt_cons] at hx
    split at hx
    next hn => exact Or.inl ⟨hn, (Option.some.inj hx).symm⟩
    next => exact Or.inr hx
  refine ⟨⟨h.cache, h.queued, ?_, ?_, h.messages⟩, fun hc => ⟨hc.1, ?_⟩⟩
  · intro n x hx
    rcases hold n x hx with ⟨rfl, rfl⟩ | hx
    · change Ringbuffer.InOrder _ (historyOf s.queued _) (historyOf s.read _)
      rw [hqueued, hread]
      exact hin
    · exact h.rings n x hx
  · intro p hp
    exact Nat.lt_succ_of_lt (h.unopened p hp)
  · intro n x hx
    rcases hold n x hx with ⟨rfl, rfl⟩ | hx
    · change Ringbuffer.Complete _ (historyOf s.queued _) (historyOf s.read _)
      rw [hqueued, hread]
      exact hcomplete
    · exact hc.2 n x hx

theorem queues_lt {udp : List UdpSocket} {packet : Packet} {n : Nat} {p : UdpPacket}
    (h : queues udp packet = some (n, p)) : n < udp.length := by
  unfold queues at h
  obtain ⟨⟨port, q⟩, hd, h⟩ := Option.bind_eq_some_iff.mp h
  obtain ⟨m, hm, h⟩ := Option.bind_eq_some_iff.mp h
  cases h
  obtain ⟨i, _, hlt, rfl⟩ := target_spec hm
  omega

theorem portsByAge_getElem? {udp : List UdpSocket} {n : Nat} (h : n < udp.length) :
    (portsByAge udp)[n]? = some udp[udp.length - 1 - n].port := by
  rw [portsByAge, List.getElem?_reverse (by rwa [List.length_map]), List.length_map, List.getElem?_map,
    List.getElem?_eq_getElem (by omega)]
  rfl

/-- `get_socket` finds the newest socket with a port. -/
theorem target_newest {udp : List UdpSocket} {port : BitVec 16} {n : Nat}
    (h : target udp port = some n) : (portsByAge udp)[n]? = some port ∧
      ∀ m, n < m → (portsByAge udp)[m]? ≠ some port := by
  obtain ⟨i, hi, hlt, rfl⟩ := target_spec h
  obtain ⟨_, hport, hfirst⟩ := List.findIdx?_eq_some_iff_getElem.mp hi
  refine ⟨?_, fun m hm => ?_⟩
  · rw [portsByAge_getElem? (by omega)]
    simp only [show udp.length - 1 - (udp.length - 1 - i) = i by omega]
    exact congrArg some (beq_iff_eq.mp hport)
  · by_cases hin : m < udp.length
    · rw [portsByAge_getElem? hin]
      intro he
      exact hfirst (udp.length - 1 - m) (by omega) (beq_iff_eq.mpr (Option.some.inj he))
    · have hlength : (portsByAge udp).length ≤ m := by
        rw [portsByAge, List.length_reverse, List.length_map]
        omega
      rw [List.getElem?_eq_none hlength]
      exact (Option.some_ne_none port).symm

theorem target_none {udp : List UdpSocket} {port : BitVec 16} (h : target udp port = none) :
    port ∉ portsByAge udp := by
  have hnone : getSocket udp port = none := Option.map_eq_none_iff.mp h
  intro hmem
  obtain ⟨socket, hsocket, hport⟩ := List.mem_map.mp (List.mem_reverse.mp hmem)
  have hother := List.findIdx?_eq_none_iff.mp hnone socket hsocket
  rw [hport, beq_self_eq_true] at hother
  cases hother

/-- A turn queues what it has to. -/
theorem queues_turn (udp : List UdpSocket) (packet : Packet) :
    Turn.Queues ⟨packet, portsByAge udp⟩ (queues udp packet) := by
  unfold Turn.Queues queues
  cases datagram packet with
  | none => rfl
  | some d =>
    obtain ⟨port, p⟩ := d
    simp only [Option.bind_eq_bind, Option.bind_some]
    cases ht : target udp port with
    | none => exact Or.inl ⟨rfl, target_none ht⟩
    | some n => exact Or.inr ⟨n, rfl, target_newest ht⟩

/-- What is queued for a socket was for its port. -/
theorem queued_sublist {turns : List Turn} {results : List (Option (Nat × UdpPacket))}
    (h : List.Forall₂ Turn.Queues turns results) (n : Nat) :
    (historyOf results.reduceOption n).Sublist (datagramsFor turns n) := by
  induction h with
  | nil => exact List.Sublist.refl _
  | @cons t result turns results hturn _ ih =>
    have hskip : (datagramsFor turns n).Sublist (datagramsFor (t :: turns) n) :=
      (List.sublist_cons_self t turns).filterMap _
    unfold Turn.Queues at hturn
    cases hd : datagram t.packet with
    | none =>
      rw [hd] at hturn
      subst hturn
      rw [List.reduceOption_cons_of_none]
      exact ih.trans hskip
    | some d =>
      rw [hd] at hturn
      rcases hturn with ⟨rfl, -⟩ | ⟨m, rfl, hport, -⟩
      · rw [List.reduceOption_cons_of_none]
        exact ih.trans hskip
      · rw [List.reduceOption_cons_of_some]
        by_cases hm : m = n
        · subst hm
          have hqueued : historyOf ((m, d.2) :: results.reduceOption) m =
              d.2 :: historyOf results.reduceOption m := by
            rw [← List.singleton_append, historyOf_append, historyOf_single, if_pos rfl]
            rfl
          have hmine : datagramsFor (t :: turns) m = d.2 :: datagramsFor turns m := by
            unfold datagramsFor
            rw [List.filterMap_cons, hd, Option.bind_some, if_pos hport]
          rw [hqueued, hmine]
          exact ih.cons_cons d.2
        · have hother : historyOf ((m, d.2) :: results.reduceOption) n =
              historyOf results.reduceOption n := by
            rw [← List.singleton_append, historyOf_append, historyOf_single, if_neg hm]
            rfl
          rw [hother]
          exact ih.trans hskip

/-- A turn of `packet_handler`. -/
theorem Ordered.handle (h : Ordered s) :
    Ordered s.handle ∧ (Complete s → (Complete s.handle ↔ HasRoom s .handle)) := by
  unfold NetStack.handle HasRoom
  cases hread : s.nic.cache.read with
  | mk item cache =>
  cases item with
  | none =>
    refine ⟨h, fun hc => iff_of_true hc ?_⟩
    intro packet n p socket hpacket
    cases hpacket
  | some packet =>
    obtain ⟨hcache, hcontents⟩ := h.cache.read hread
    obtain ⟨results, hturns, hresults⟩ := h.queued
    have hturn := queues_turn s.sockets.udp packet
    have hqueued : ∃ results', List.Forall₂ Turn.Queues
        (s.handled ++ [⟨packet, portsByAge s.sockets.udp⟩]) results' ∧
        s.queued ++ (queues s.sockets.udp packet).toList = results'.reduceOption := by
      refine ⟨results ++ [queues s.sockets.udp packet],
        List.rel_append hturns (List.Forall₂.cons hturn List.Forall₂.nil), ?_⟩
      rw [List.reduceOption_append, ← hresults, List.reduceOption_singleton]
    have hlength := fun n => (handlePacket_sockets s.sockets packet n).1
    have hsockets := fun n => (handlePacket_sockets s.sockets packet n).2
    have hhandled : s.handled.map Turn.packet ++ [packet] =
        (s.handled ++ [(⟨packet, portsByAge s.sockets.udp⟩ : Turn)]).map Turn.packet := by
      rw [List.map_append]
      rfl
    rw [hhandled] at hcache hcontents
    simp only
    cases hq : queues s.sockets.udp packet with
    | none =>
      rw [hq] at hqueued
      simp only [hq] at hsockets
      simp only [Option.toList_none, List.append_nil] at hqueued ⊢
      refine ⟨⟨hcache, hqueued, ?_, ?_, h.messages⟩, fun hc => iff_of_true ⟨?_, ?_⟩ ?_⟩
      · intro n x hx
        rw [hsockets] at hx
        exact h.rings n x hx
      · intro p hp
        exact lt_of_lt_of_eq (h.unopened p hp) (hlength 0).symm
      · exact hcontents.trans hc.1
      · intro n x hx
        rw [hsockets] at hx
        exact hc.2 n x hx
      · intro packet' n p socket hpacket hqueues
        obtain rfl := Option.some.inj hpacket
        rw [hq] at hqueues
        cases hqueues
    | some q =>
      obtain ⟨m, p⟩ := q
      have hm := queues_lt hq
      rw [hq] at hqueued
      simp only [hq] at hsockets
      simp only [Option.toList_some] at hqueued ⊢
      have hself : historyOf (s.queued ++ [(m, p)]) m = historyOf s.queued m ++ [p] := by
        exact historyOf_snoc_self
      have hother : ∀ n, n ≠ m → historyOf (s.queued ++ [(m, p)]) n = historyOf s.queued n := by
        intro n hn
        exact historyOf_snoc_other hn
      have hold : ∀ n x, socketAt (handlePacket s.sockets packet).value.udp n = some x →
          (n = m ∧ ∃ y, socketAt s.sockets.udp n = some y ∧ x = y.write p) ∨
            (n ≠ m ∧ socketAt s.sockets.udp n = some x) := by
        intro n x hx
        rw [hsockets] at hx
        split at hx
        next hn =>
          obtain ⟨y, hy, rfl⟩ := Option.map_eq_some_iff.mp hx
          exact Or.inl ⟨hn, y, hy, rfl⟩
        next hn => exact Or.inr ⟨hn, hx⟩
      refine ⟨⟨hcache, hqueued, ?_, ?_, h.messages⟩,
        fun hc => ⟨fun hnew => ?_, fun hroom => ⟨?_, ?_⟩⟩⟩
      · intro n x hx
        rcases hold n x hx with ⟨rfl, y, hy, rfl⟩ | ⟨hn, hx⟩
        · rw [hself]
          exact (h.rings n y hy).write (by decide) p
        · rw [hother n hn]
          exact h.rings n x hx
      · intro q hq
        rw [List.mem_append, List.mem_singleton] at hq
        rw [hlength 0]
        rcases hq with (hq | rfl) | hq
        · exact h.unopened q (Or.inl hq)
        · exact hm
        · exact h.unopened q (Or.inr hq)
      · intro packet' n p' socket hpacket hqueues hsocket
        obtain rfl := Option.some.inj hpacket
        obtain ⟨rfl, rfl⟩ := Prod.mk.inj (Option.some.inj (hq.symm.trans hqueues))
        have hwritten := hnew.2 m (socket.write p) (by
          rw [hsockets, if_pos rfl, hsocket]
          rfl)
        simp only [hself] at hwritten
        exact (Ringbuffer.complete_write_iff (h.rings m socket hsocket) (hc.2 m socket hsocket)
          (by decide) p).mp hwritten
      · exact hcontents.trans hc.1
      · intro n x hx
        rcases hold n x hx with ⟨rfl, y, hy, rfl⟩ | ⟨hn, hx⟩
        · simp only [hself]
          exact (Ringbuffer.complete_write_iff (h.rings n y hy) (hc.2 n y hy) (by decide) p).mpr
            (hroom packet n p y rfl hq hy)
        · simp only [hother n hn]
          exact hc.2 n x hx

/-- What a call of `recv_msg` does: it takes the oldest packet of its socket, or nothing. -/
theorem recvMsg_cases (socket : UdpSocket) (dontWait nonBlock : Bool) (len : Nat) :
    ((∀ length data src, (socket.recvMsg dontWait nonBlock len).1 ≠ .message length data src) ∧
      (socket.recvMsg dontWait nonBlock len).2 = socket) ∨
    ∃ p packets, socket.packets.read = (some p, packets) ∧
      socket.recvMsg dontWait nonBlock len = (.message (min len p.length)
        (p.data.take (min len p.length)) ⟨.inet, p.srcPort, p.srcIp⟩, { socket with packets }) := by
  unfold UdpSocket.recvMsg
  cases hread : socket.packets.read with
  | mk item packets =>
  cases item with
  | none =>
    left
    cases dontWait with
    | true =>
      refine ⟨?_, rfl⟩
      intro length data src he
      cases he
    | false =>
      cases nonBlock with
      | true =>
        refine ⟨?_, rfl⟩
        intro length data src he
        cases he
      | false =>
        refine ⟨?_, rfl⟩
        intro length data src he
        cases he
  | some p => exact Or.inr ⟨p, packets, rfl, rfl⟩

/-- A call that takes a packet. -/
theorem Ordered.take (h : Ordered s) {n len : Nat} {socket : UdpSocket} {p : UdpPacket}
    {packets : Ringbuffer UdpPacket 64} (hn : socketAt s.sockets.udp n = some socket)
    (hread : socket.packets.read = (some p, packets)) {t : NetStack}
    (ht : t = { s.setUdp (NetStack.setSocket s.sockets.udp n { socket with packets }) with
      messages := s.messages ++ [⟨n, len, p.data.take (min len p.length), ⟨.inet, p.srcPort, p.srcIp⟩⟩]
      read := s.read ++ [(n, p)] }) :
    Ordered t ∧ (Complete s → Complete t) := by
  obtain ⟨hin, hcontents⟩ := (h.rings n socket hn).read hread
  have hself : historyOf (s.read ++ [(n, p)]) n = historyOf s.read n ++ [p] := by
    exact historyOf_snoc_self
  have hother : ∀ m, m ≠ n → historyOf (s.read ++ [(n, p)]) m = historyOf s.read m := by
    intro m hm
    exact historyOf_snoc_other hm
  have hold : ∀ m x, socketAt (NetStack.setSocket s.sockets.udp n { socket with packets }) m = some x →
      (m = n ∧ x = { socket with packets }) ∨ (m ≠ n ∧ socketAt s.sockets.udp m = some x) := by
    intro m x hx
    rw [socketAt_setSocket (socketAt_lt hn)] at hx
    split at hx
    next he => exact Or.inl ⟨he, (Option.some.inj hx).symm⟩
    next he => exact Or.inr ⟨he, hx⟩
  subst ht
  refine ⟨⟨h.cache, h.queued, ?_, ?_, ?_⟩, fun hc => ⟨hc.1, ?_⟩⟩
  · intro m x hx
    rcases hold m x hx with ⟨rfl, rfl⟩ | ⟨hm, hx⟩
    · simp only [hself]
      exact hin
    · simp only [hother m hm]
      exact h.rings m x hx
  · intro q hq
    refine lt_of_lt_of_eq ?_ length_setSocket.symm
    rcases hq with hq | hq
    · exact h.unopened q (Or.inl hq)
    · rcases List.mem_append.mp hq with hq | hq
      · exact h.unopened q (Or.inr hq)
      · rw [List.mem_singleton.mp hq]
        exact socketAt_lt hn
  · exact List.rel_append h.messages (List.Forall₂.cons ⟨rfl, rfl, rfl⟩ List.Forall₂.nil)
  · intro m x hx
    rcases hold m x hx with ⟨rfl, rfl⟩ | ⟨hm, hx⟩
    · simp only [hself]
      exact hcontents.trans (hc.2 m socket hn)
    · simp only [hother m hm]
      exact hc.2 m x hx

theorem Ordered.recv (h : Ordered s) (n : Nat) (dontWait nonBlock : Bool) (len : Nat) :
    Ordered (s.recv n dontWait nonBlock len) ∧
      (Complete s → Complete (s.recv n dontWait nonBlock len)) := by
  unfold NetStack.recv
  cases hn : socketAt s.sockets.udp n with
  | none => exact ⟨h, id⟩
  | some socket =>
    rcases recvMsg_cases socket dontWait nonBlock len with ⟨hnone, hsame⟩ | ⟨p, packets, hread, hrecv⟩
    · have hset := h.change hn (congrArg UdpSocket.packets hsame)
      cases hresult : socket.recvMsg dontWait nonBlock len with
      | mk result socket' =>
      rw [hresult] at hnone hset
      cases result with
      | error e => simpa only [hresult] using hset
      | wait => simpa only [hresult] using hset
      | message length data src => exact absurd rfl (hnone length data src)
    · simp only [hrecv, hread]
      exact h.take hn hread rfl

theorem sendMsg_packets (socket : UdpSocket) (driver : Option MacAddress) (hdr : MsgHeader) (data : List Byte) :
    (socket.sendMsg driver hdr data).2.1.packets = socket.packets := by
  unfold UdpSocket.sendMsg
  cases hdr.name with
  | none => rfl
  | some addr =>
    simp only
    split
    next => rfl
    next =>
      split
      next => rfl
      next =>
        split
        next => rfl
        next => rfl

theorem Ordered.send (h : Ordered s) (n : Nat) (driver : Option MacAddress) (hdr : MsgHeader) (data : List Byte) :
    Ordered (s.step (.send n driver hdr data)) ∧
      (Complete s → Complete (s.step (.send n driver hdr data))) := by
  cases hn : socketAt s.sockets.udp n with
  | none =>
    simp only [NetStack.step, hn]
    exact ⟨h, id⟩
  | some socket =>
    simp only [NetStack.step, hn]
    exact h.change hn (sendMsg_packets socket driver hdr data)

/-- Only a write to a full ring loses a packet. -/
theorem Ordered.step (h : Ordered s) (event : NetEvent) :
    Ordered (s.step event) ∧ (Complete s → (Complete (s.step event) ↔ HasRoom s event)) := by
  cases event with
  | nic event => exact h.nic event
  | handle => exact h.handle
  | socket port data =>
    obtain ⟨hnext, hc⟩ := h.socket port data
    exact ⟨hnext, fun hs => iff_of_true (hc hs) trivial⟩
  | send n driver hdr data =>
    obtain ⟨hnext, hc⟩ := h.send n driver hdr data
    exact ⟨hnext, fun hs => iff_of_true (hc hs) trivial⟩
  | recv n dontWait nonBlock len =>
    obtain ⟨hnext, hc⟩ := h.recv n dontWait nonBlock len
    exact ⟨hnext, fun hs => iff_of_true (hc hs) trivial⟩

/-- The calls leave the card as it is, but for the tail of the cache. -/
theorem step_nic (s : NetStack) (event : NetEvent) :
    (∃ e, event = .nic e ∧ (s.step event).nic = s.nic.step e) ∨
      ∃ cache, (s.step event).nic = { s.nic with cache } := by
  cases event with
  | nic e => exact Or.inl ⟨e, rfl, rfl⟩
  | handle =>
    right
    unfold step NetStack.handle
    cases s.nic.cache.read with
    | mk item cache =>
    cases item with
    | none => exact ⟨s.nic.cache, rfl⟩
    | some packet => exact ⟨cache, rfl⟩
  | socket port data => exact Or.inr ⟨s.nic.cache, rfl⟩
  | send n driver hdr data =>
    right
    unfold step
    refine ⟨s.nic.cache, ?_⟩
    cases hn : socketAt s.sockets.udp n with
    | none => simp only [hn]
    | some socket => simp only [hn, setUdp]
  | recv n dontWait nonBlock len =>
    right
    unfold step NetStack.recv
    refine ⟨s.nic.cache, ?_⟩
    cases hn : socketAt s.sockets.udp n with
    | none => simp only [hn]
    | some socket =>
      cases hresult : socket.recvMsg dontWait nonBlock len with
      | mk result socket' =>
      cases result with
      | error e => simp only [hn, hresult, setUdp]
      | wait => simp only [hn, hresult, setUdp]
      | message length data src => simp only [hn, hresult, setUdp]

theorem inRing_step {addr : Nat → BitVec 64} (hinj : ∀ i j, i < E1000.numRxDescs → j < E1000.numRxDescs →
    addr i = addr j → i = j) {event : NetEvent} (hr : s.nic.InRing addr) (hm : s.Meets event) :
    (s.step event).nic.InRing addr := by
  obtain ⟨c, hc⟩ := hr
  rcases step_nic s event with ⟨e, rfl, he⟩ | ⟨cache, he⟩
  · rw [he]
    exact hc.step hinj hm
  · rw [he]
    exact ⟨c, hc.behind, hc.room, hc.rdh, hc.rdt, hc.addrs, hc.done, hc.written, hc.progress⟩

/-- What the calls on a socket return are datagrams for its port, in their order and each once. -/
theorem Ordered.received (h : Ordered s) (n : Nat) :
    (historyOf s.read n).Sublist (datagramsFor s.handled n) := by
  have hread : (historyOf s.read n).Sublist (historyOf s.queued n) := by
    by_cases hn : n < s.sockets.udp.length
    · have hsome : ∃ socket, socketAt s.sockets.udp n = some socket := by
        unfold socketAt
        rw [if_pos hn, List.getElem?_eq_getElem (by omega)]
        exact ⟨_, rfl⟩
      obtain ⟨socket, hsocket⟩ := hsome
      exact (List.sublist_append_left _ _).trans (h.rings n socket hsocket).sublist
    · rw [historyOf_none fun p hp => Nat.ne_of_lt (lt_of_lt_of_le (h.unopened p (Or.inr hp)) (not_lt.mp hn))]
      exact List.nil_sublist _
  obtain ⟨results, hturns, hresults⟩ := h.queued
  rw [hresults] at hread
  exact hread.trans (queued_sublist hturns n)

/-- Along a run, the packets in the cache are those of the frames that the card stored,
`packet_handler` takes them in their order, and each socket gets the datagrams in them that are for its
port. -/
structure Arrives (s : NetStack) : Prop where
  ordered : Ordered s
  frames : ∃ k, s.nic.written.map Packet.bytes = E1000.taken (s.nic.stored.take k)
  handled : (s.handled.map Turn.packet).Sublist s.nic.written
  received : ∀ n, (historyOf s.read n).Sublist (datagramsFor s.handled n)

/-- From the wire to the calls of `recv_msg`, with frames, interrupts, turns of `packet_handler` and
calls in any order: nothing is reordered, repeated or invented, and the rings lose nothing exactly as
long as none is full when a packet is written to it. -/
theorem datagrams_arrive {addr : Nat → BitVec 64} {buffers : BitVec 64 → Memory} {cache : Nat → Packet}
    {events : List NetEvent}
    (hinj : ∀ i j, i < E1000.numRxDescs → j < E1000.numRxDescs → addr i = addr j → i = j)
    (hm : StepsMeet step Meets (start addr buffers cache) events) :
    (∀ done, done <+: events → Arrives (done.foldl step (start addr buffers cache))) ∧
      ((∀ done, done <+: events → Complete (done.foldl step (start addr buffers cache))) ↔
        StepsMeet step HasRoom (start addr buffers cache) events) := by
  obtain ⟨hordered, hcomplete⟩ := start_ordered addr buffers cache
  refine ⟨fun done hdone => ?_, ?_⟩
  · have hkeep : ∀ s e, Ordered s ∧ s.nic.InRing addr → s.Meets e →
        Ordered (s.step e) ∧ (s.step e).nic.InRing addr := by
      intro s e hs hmeets
      exact ⟨(hs.1.step e).1, inRing_step hinj hs.2 hmeets⟩
    have hring : (start addr buffers cache).nic.InRing addr := ⟨0, E1000.ring_initReceive buffers _⟩
    obtain ⟨hs, c, hring⟩ := (hm.of_prefix hdone).invariant hkeep ⟨hordered, hring⟩
    exact ⟨hs, ⟨_, hring.written⟩, (List.sublist_append_left _ _).trans hs.cache.sublist, hs.received⟩
  · have hkeep : ∀ s e, Ordered s ∧ Complete s → HasRoom s e → Ordered (s.step e) ∧ Complete (s.step e) := by
      intro s e hs hroom
      obtain ⟨hnext, hc⟩ := hs.1.step e
      exact ⟨hnext, (hc hs.2).mpr hroom⟩
    have hfails : ∀ s e, Ordered s ∧ Complete s → ¬HasRoom s e → ¬Complete (s.step e) := by
      intro s e hs hroom hnext
      exact hroom (((hs.1.step e).2 hs.2).mp hnext)
    exact stepsMeet_iff hkeep (fun s hs => hs.2) hfails ⟨hordered, hcomplete⟩

/-- The echoed datagram on the wire. -/
def echoed : Frame := ⟨echoFrame, by decide⟩

/-- A datagram that arrives, is handled and is read by a task from the socket with its port, which is
not the newest one. -/
def oneDatagram : List NetEvent :=
  [.socket 7#16 fun _ => ⟨0#32, 0#16, 0, []⟩, .socket 9#16 fun _ => ⟨0#32, 0#16, 0, []⟩,
    .nic (.arrival echoed), .nic .interrupt] ++ List.replicate 9 (.nic .handler) ++
    [.handle, .recv 1 true false 100, .recv 0 false false 100]

def noPacket (_ : Nat) : Packet := ⟨fun _ => 0#8, 0⟩

theorem oneDatagram_meets :
    StepsMeet step Meets (start E1000.bufferPages (fun _ _ => 0#8) noPacket) oneDatagram := by
  have hfirst : (255 : Nat) ≠ 1 := by decide
  have hwaits : ¬(0 : Nat) = 1 := by decide
  refine And.intro trivial (And.intro trivial (And.intro trivial (And.intro trivial (And.intro trivial
    (And.intro trivial ?_)))))
  refine And.intro hfirst (And.intro (fun h => absurd h hwaits) ?_)
  exact And.intro trivial (And.intro trivial (And.intro trivial
    (And.intro hwaits (And.intro (fun _ => rfl) (And.intro trivial (And.intro trivial
      (And.intro trivial trivial)))))))

theorem oneDatagram_arrives :
    Arrives (oneDatagram.foldl step (start E1000.bufferPages (fun _ _ => 0#8) noPacket)) ∧
      (oneDatagram.foldl step (start E1000.bufferPages (fun _ _ => 0#8) noPacket)).messages.map
        Message.socket = [0] :=
  ⟨(datagrams_arrive E1000.bufferPages_inj oneDatagram_meets).1 _ List.prefix_rfl, by decide⟩

-- eight bytes from behind the payload come with it
example : ((oneDatagram.foldl step (start E1000.bufferPages (fun _ _ => 0#8) noPacket)).messages.map
    Message.data) = [0x2a#8 :: List.replicate 8 0#8] := by decide

end NetStack

end UmbraOS
