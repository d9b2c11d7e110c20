import UmbraOS.Runs
import UmbraOS.UdpSocket

namespace UmbraOS

namespace Socket

/-- A reply as it arrived: where its header lies, and the bytes of the message. -/
structure IcmpReply where
  header : Nat
  message : List Byte
deriving DecidableEq

/-- Kernel memory and the sockets. `inbox` is not in the source: it records for each ICMP socket
the replies that were written to it and that it has neither read nor dropped, oldest first. -/
structure IcmpState where
  mem : Memory
  sockets : Sockets
  inbox : List (List IcmpReply)

/-- The bytes that a `memcpy` from `addr` copies. -/
def bytesAt (mem : Memory) (addr len : Nat) : List Byte := (List.range len).map fun i => mem (addr + i)

/-- What `packet_handler` does with the packet of `length` bytes at `frame`. -/
def handleFrame (sockets : Sockets) (mem : Memory) (frame length : Nat) : Traced Sockets := do
  let etherType ← netWord mem (frame + 12)
  if etherType = EtherType.ipv4 then
    receiveIpv4 sockets mem (frame + ethernetFrameSize) (sub64 length ethernetFrameSize)
  else pure sockets

/-- `receive_ipv4` takes the frame for an IPv4 packet and clears its checksum. -/
def ClearsChecksum (mem : Memory) (frame length : Nat) : Prop :=
  (netWord mem (frame + 12)).value = EtherType.ipv4 ∧
    ¬sub64 length ethernetFrameSize < ipv4HeaderSize ∧
    (mem (frame + ethernetFrameSize)).toNat / 16 = 4

instance (mem : Memory) (frame length : Nat) : Decidable (ClearsChecksum mem frame length) :=
  inferInstanceAs (Decidable (_ ∧ _))

/-- The length that `receive_icmp` computes from the IPv4 header. -/
def icmpLength (mem : Memory) (frame : Nat) : Nat :=
  sub64 (netWord mem (frame + 16)).value.toNat ipv4HeaderSize

/-- The frame is an echo reply. -/
def EchoReply (mem : Memory) (frame length : Nat) : Prop :=
  ClearsChecksum mem frame length ∧
    (word mem (frame + 24)).value =
      (getChecksum (clearChecksum mem (frame + 14)) (frame + 14) ipv4HeaderSize).value ∧
    mem (frame + 23) = Ipv4Protocol.icmp ∧ ¬icmpLength mem frame < icmpHeaderSize ∧
    mem (frame + 34) = 0#8 ∧ mem (frame + 35) = 0#8

instance (mem : Memory) (frame length : Nat) : Decidable (EchoReply mem frame length) :=
  inferInstanceAs (Decidable (_ ∧ _))

/-- The ICMP message of a frame: the length is that of the IPv4 header, up to the end of the
frame. -/
def replyAt (mem : Memory) (frame length : Nat) : IcmpReply :=
  ⟨frame + 34, bytesAt mem (frame + 34) (min (icmpLength mem frame) (length - 34))⟩

/-- A full ring loses its oldest reply. -/
def enqueueReply (reply : IcmpReply) (queue : List IcmpReply) : List IcmpReply :=
  (if queue.length + 1 = 64 then queue.tail else queue) ++ [reply]

inductive IcmpRecv
  | error (e : Errno)
  /-- The task waits for a reply. -/
  | wait
  /-- The returned length and the bytes written to the buffer. -/
  | message (ret : BitVec 32) (data : List Byte)

/-- `IcmpSocket::recv_msg` into a buffer of `len` bytes. -/
def IcmpSocket.recvMsg (socket : IcmpSocket) (mem : Memory) (dontWait nonBlock : Bool) (len : Nat) :
    IcmpRecv × IcmpSocket :=
  match socket.packets.read with
  | (none, _) =>
    if dontWait then (.error .again, socket)
    else if nonBlock then (.error .wouldBlock, socket)
    else (.wait, socket)
  | (some packet, packets) => (.message (BitVec.ofNat 32 len) (bytesAt mem packet len), ⟨packets⟩)

/-- `memory` is whatever the rest of the kernel does to memory: it allocates, frees and fills
buffers, those of the card among them. `add` makes a socket, with junk in its new ring. -/
inductive IcmpEvent
  | add (junk : Nat → Nat)
  | handle (frame length : Nat)
  | memory (mem : Memory)
  | recv (i : Nat) (dontWait nonBlock : Bool) (len : Nat)

namespace IcmpState

def start (mem : Memory) (udp : List UdpSocket) : IcmpState := ⟨mem, ⟨udp, []⟩, []⟩

def handle (s : IcmpState) (frame length : Nat) : IcmpState where
  mem := if ClearsChecksum s.mem frame length then clearChecksum s.mem (frame + 14) else s.mem
  sockets := (handleFrame s.sockets s.mem frame length).value
  inbox :=
    if EchoReply s.mem frame length then
      s.inbox.map (enqueueReply (replyAt s.mem frame length))
    else s.inbox

def recv (s : IcmpState) (i : Nat) (dontWait nonBlock : Bool) (len : Nat) : IcmpState :=
  match s.sockets.icmp[i]? with
  | none => s
  | some socket =>
    { s with
      sockets := { s.sockets with
        icmp := s.sockets.icmp.set i (socket.recvMsg s.mem dontWait nonBlock len).2 }
      inbox := s.inbox.modify i List.tail }

def step (s : IcmpState) : IcmpEvent → IcmpState
  | .add junk => { s with
      sockets := { s.sockets with icmp := s.sockets.icmp ++ [⟨⟨junk, 0, 0⟩⟩] }
      inbox := s.inbox ++ [[]] }
  | .handle frame length => s.handle frame length
  | .memory mem => { s with mem }
  | .recv i dontWait nonBlock len => s.recv i dontWait nonBlock len

/-- A receive that succeeds delivers the next reply: as many bytes of it as fit. -/
def Delivers (s : IcmpState) : IcmpEvent → Prop
  | .recv i dontWait nonBlock len => ∀ socket ret data, s.sockets.icmp[i]? = some socket →
    (socket.recvMsg s.mem dontWait nonBlock len).1 = .message ret data →
    ∃ reply rest, s.inbox[i]? = some (reply :: rest) ∧ data = reply.message.take len ∧
      ret = BitVec.ofNat 32 (min len reply.message.length)
  | _ => True

/-- A receive asks for no more than the next reply, and memory still holds what it asks for. -/
def Readable (s : IcmpState) : IcmpEvent → Prop
  | .recv i _ _ len => ∀ reply rest, s.inbox[i]? = some (reply :: rest) →
    len ≤ reply.message.length ∧
    ∀ k < len, some (s.mem (reply.header + k)) = reply.message[k]?
  | _ => True

/-- A step changes no byte of a reply that is still queued, and asks for no more than the next
reply. -/
def Spares (s : IcmpState) (e : IcmpEvent) : Prop :=
  (∀ queue ∈ s.inbox, ∀ reply ∈ queue, ∀ k < reply.message.length,
    (s.step e).mem (reply.header + k) = s.mem (reply.header + k)) ∧
  match e with
  | .recv i _ _ len => ∀ reply rest, s.inbox[i]? = some (reply :: rest) →
    len ≤ reply.message.length
  | _ => True

end IcmpState

open Traced

theorem receiveUdp_icmp (sockets : Sockets) (data : Memory) (ipv4 : Nat) :
    (receiveUdp sockets data ipv4).value.icmp = sockets.icmp := by
  simp only [receiveUdp, value_bind, value_ite, value_pure]
  split
  next => rfl
  next =>
    split
    next => rfl
    next =>
      split
      next => rfl
      next => rfl

theorem receiveIcmp_icmp (sockets : Sockets) (data : Memory) (ipv4 : Nat) :
    (receiveIcmp sockets data ipv4).value.icmp =
      if ¬sub64 (netWord data (ipv4 + 2)).value.toNat ipv4HeaderSize < icmpHeaderSize ∧
        data (ipv4 + 20) = 0#8 ∧ data (ipv4 + 21) = 0#8 then
        sockets.icmp.map fun socket => ⟨socket.packets.write (ipv4 + 20)⟩
      else sockets.icmp := by
  have htype : ipv4 + ipv4HeaderSize = ipv4 + 20 := rfl
  have hcode : ipv4 + 20 + 1 = ipv4 + 21 := rfl
  simp only [receiveIcmp, value_bind, value_ite, value_pure, htype, hcode]
  by_cases hlen : sub64 (netWord data (ipv4 + 2)).value.toNat ipv4HeaderSize < icmpHeaderSize
  · rw [if_pos hlen, if_neg fun h => h.1 hlen]
  · rw [if_neg hlen]
    by_cases htype : (byte data (ipv4 + 20)).value = 0#8
    · rw [if_pos htype]
      by_cases hcode : (byte data (ipv4 + 21)).value = 0#8
      · rw [if_pos hcode, if_pos ⟨hlen, htype, hcode⟩]
      · rw [if_neg hcode, if_neg fun h => hcode h.2.2]
    · rw [if_neg htype, if_neg fun h => htype h.2.1]

/-- An echo reply is written to every ICMP socket, and no other frame is written to one. -/
theorem handleFrame_icmp (sockets : Sockets) (mem : Memory) (frame length : Nat) :
    (handleFrame sockets mem frame length).value.icmp =
      if EchoReply mem frame length then
        sockets.icmp.map fun socket => ⟨socket.packets.write (frame + 34)⟩
      else sockets.icmp := by
  have htotal : (netWord (clearChecksum mem (frame + 14)) (frame + 16)).value =
      (netWord mem (frame + 16)).value :=
    netWord_congr (clearChecksum_other (by omega)) (clearChecksum_other (by omega))
  have hprotocol : clearChecksum mem (frame + 14) (frame + 23) = mem (frame + 23) :=
    clearChecksum_other (by omega)
  have htype : clearChecksum mem (frame + 14) (frame + 34) = mem (frame + 34) :=
    clearChecksum_other (by omega)
  have hcode : clearChecksum mem (frame + 14) (frame + 35) = mem (frame + 35) :=
    clearChecksum_other (by omega)
  have hicmp := receiveIcmp_icmp sockets (clearChecksum mem (frame + 14)) (frame + 14)
  rw [show frame + 14 + 2 = frame + 16 from rfl, show frame + 14 + 20 = frame + 34 from rfl,
    show frame + 14 + 21 = frame + 35 from rfl, htotal, htype, hcode] at hicmp
  have hframe : frame + ethernetFrameSize = frame + 14 := rfl
  have hsum : frame + 14 + 10 = frame + 24 := rfl
  have hnine : frame + 14 + 9 = frame + 23 := rfl
  unfold EchoReply ClearsChecksum
  simp only [handleFrame, receiveIpv4, value_bind, value_ite, value_pure, hframe, hsum, hnine]
  by_cases hether : (netWord mem (frame + 12)).value = EtherType.ipv4
  · rw [if_pos hether]
    by_cases hlong : sub64 length ethernetFrameSize < ipv4HeaderSize
    · rw [if_pos hlong, if_neg fun h => h.1.2.1 hlong]
    · rw [if_neg hlong]
      by_cases hversion : (byte mem (frame + 14)).value.toNat / 16 = 4
      · rw [if_neg (not_not.mpr hversion)]
        by_cases hvalid : (word mem (frame + 24)).value =
            (getChecksum (clearChecksum mem (frame + 14)) (frame + 14) ipv4HeaderSize).value
        · rw [if_neg (not_not.mpr hvalid)]
          by_cases hicmpProtocol : (byte (clearChecksum mem (frame + 14)) (frame + 23)).value =
              Ipv4Protocol.icmp
          · rw [if_pos hicmpProtocol, hicmp]
            have hmem : mem (frame + 23) = Ipv4Protocol.icmp := hprotocol.symm.trans hicmpProtocol
            refine if_congr ?_ rfl rfl
            exact ⟨fun h => ⟨⟨hether, hlong, hversion⟩, hvalid, hmem, h⟩, fun h => h.2.2.2⟩
          · have hmem : mem (frame + 23) ≠ Ipv4Protocol.icmp :=
              fun h => hicmpProtocol (hprotocol.trans h)
            rw [if_neg hicmpProtocol]
            by_cases hudp : (byte (clearChecksum mem (frame + 14)) (frame + 23)).value =
                Ipv4Protocol.udp
            · rw [if_pos hudp, receiveUdp_icmp, if_neg fun h => hmem h.2.2.1]
            · rw [if_neg hudp, if_neg fun h => hmem h.2.2.1]
        · rw [if_pos hvalid, if_neg fun h => hvalid h.2.1]
      · rw [if_pos hversion, if_neg fun h => hversion h.1.2.2]
  · rw [if_neg hether, if_neg fun h => hether h.1.1]

/-- At the start of the memory of a packet this is `handlePacket`. -/
theorem handleFrame_packet (sockets : Sockets) (packet : Packet) :
    handleFrame sockets packet.data 0 packet.length = handlePacket sockets packet := by
  simp only [handleFrame, handlePacket, Nat.zero_add]

theorem bytesAt_length (mem : Memory) (addr len : Nat) : (bytesAt mem addr len).length = len := by
  rw [bytesAt, List.length_map, List.length_range]

theorem bytesAt_get {mem : Memory} {addr len k : Nat} (h : k < len) :
    (bytesAt mem addr len)[k]? = some (mem (addr + k)) := by
  rw [bytesAt, List.getElem?_map, List.getElem?_range h, Option.map_some]

/-- A copy of `len` bytes is a prefix of a message exactly if the message is long enough and
memory holds it. -/
theorem bytesAt_eq_take {mem : Memory} {addr len : Nat} {message : List Byte} :
    bytesAt mem addr len = message.take len ↔
      len ≤ message.length ∧ ∀ k < len, some (mem (addr + k)) = message[k]? := by
  constructor
  · intro h
    have hlength := congrArg List.length h
    rw [bytesAt_length, List.length_take] at hlength
    refine ⟨by omega, fun k hk => ?_⟩
    rw [← bytesAt_get hk, h, List.getElem?_take_of_lt hk]
  · intro h
    obtain ⟨hlen, hbytes⟩ := h
    refine List.ext_getElem? fun k => ?_
    rcases Nat.lt_or_ge k len with hk | hk
    · rw [bytesAt_get hk, List.getElem?_take_of_lt hk, hbytes k hk]
    · rw [List.getElem?_eq_none (by rw [bytesAt_length]; exact hk),
        List.getElem?_eq_none (by rw [List.length_take]; omega)]

/-- The ring of a socket holds the headers of the replies queued for it. -/
structure Holds (socket : IcmpSocket) (queue : List IcmpReply) : Prop where
  ok : socket.packets.Ok
  contents : socket.packets.contents = queue.map IcmpReply.header

theorem Holds.enqueue {socket : IcmpSocket} {queue : List IcmpReply} (h : Holds socket queue)
    (reply : IcmpReply) : Holds ⟨socket.packets.write reply.header⟩ (enqueueReply reply queue) := by
  refine ⟨Ringbuffer.write_ok h.ok _, ?_⟩
  have hlength : socket.packets.length = queue.length := by
    have hcontents := congrArg List.length h.contents
    rwa [Ringbuffer.contents, List.length_map, List.length_range, List.length_map] at hcontents
  rw [Ringbuffer.write_contents h.ok (by decide), enqueueReply, List.map_append, List.map_singleton,
    hlength, h.contents]
  congr 1
  split
  next => rw [List.map_tail]
  next => rfl

/-- A receive takes the oldest reply, and succeeds only if there is one. -/
theorem Holds.recv {socket : IcmpSocket} {queue : List IcmpReply} (h : Holds socket queue)
    (mem : Memory) (dontWait nonBlock : Bool) (len : Nat) :
    Holds (socket.recvMsg mem dontWait nonBlock len).2 queue.tail ∧
      ∀ ret data, (socket.recvMsg mem dontWait nonBlock len).1 = .message ret data ↔
        ∃ reply rest, queue = reply :: rest ∧ ret = BitVec.ofNat 32 len ∧
          data = bytesAt mem reply.header len := by
  cases queue with
  | nil =>
    have hempty : socket.packets.isEmpty = true := (Ringbuffer.isEmpty_iff h.ok).mpr h.contents
    have hread : socket.packets.read = (none, socket.packets) := by
      rw [Ringbuffer.read, if_pos hempty]
    have hstays : (socket.recvMsg mem dontWait nonBlock len).2 = socket ∧
        ∀ ret data, (socket.recvMsg mem dontWait nonBlock len).1 ≠ .message ret data := by
      rw [IcmpSocket.recvMsg, hread]
      cases dontWait with
      | true => exact ⟨rfl, fun _ _ he => by cases he⟩
      | false =>
        cases nonBlock with
        | true => exact ⟨rfl, fun _ _ he => by cases he⟩
        | false => exact ⟨rfl, fun _ _ he => by cases he⟩
    rw [hstays.1]
    refine ⟨h, fun ret data => ⟨fun he => absurd he (hstays.2 ret data), fun he => ?_⟩⟩
    obtain ⟨reply, rest, hqueue, -⟩ := he
    cases hqueue
  | cons reply rest =>
    obtain ⟨hsome, hrest⟩ := Ringbuffer.read_contents h.ok h.contents
    have hread : socket.packets.read = (some reply.header, socket.packets.read.2) :=
      Prod.ext hsome rfl
    have hrecv : socket.recvMsg mem dontWait nonBlock len =
        (.message (BitVec.ofNat 32 len) (bytesAt mem reply.header len), ⟨socket.packets.read.2⟩) := by
      rw [IcmpSocket.recvMsg, hread]
    rw [hrecv]
    refine ⟨⟨Ringbuffer.read_ok h.ok, hrest⟩, fun ret data => ⟨fun he => ?_, fun he => ?_⟩⟩
    · cases he
      exact ⟨reply, rest, rfl, rfl, rfl⟩
    · obtain ⟨reply', rest', hqueue, rfl, rfl⟩ := he
      cases hqueue
      rfl

namespace IcmpState

/-- Each ring holds what was queued for its socket. -/
structure Synced (s : IcmpState) : Prop where
  same : s.inbox.length = s.sockets.icmp.length
  holds : ∀ (i : Nat) socket queue, s.sockets.icmp[i]? = some socket → s.inbox[i]? = some queue →
    Holds socket queue

/-- Memory still holds every reply that is queued. -/
def Intact (s : IcmpState) : Prop :=
  ∀ (i : Nat) queue, s.inbox[i]? = some queue → ∀ reply ∈ queue,
    ∀ k < reply.message.length, some (s.mem (reply.header + k)) = reply.message[k]?

variable {s : IcmpState}

theorem Synced.add (h : Synced s) (junk : Nat → Nat) : Synced (s.step (.add junk)) := by
  refine ⟨?_, fun i socket queue hsocket hqueue => ?_⟩
  · simp only [step, List.length_append, List.length_singleton, h.same]
  · simp only [step] at hsocket hqueue
    rw [List.getElem?_append] at hsocket hqueue
    rw [h.same] at hqueue
    split at hsocket
    next hlt =>
      rw [if_pos hlt] at hqueue
      exact h.holds i socket queue hsocket hqueue
    next hge =>
      rw [if_neg hge] at hqueue
      obtain rfl := List.mem_singleton.mp (List.mem_of_getElem? hsocket)
      obtain rfl := List.mem_singleton.mp (List.mem_of_getElem? hqueue)
      have hok : (⟨junk, 0, 0⟩ : Ringbuffer Nat 64).Ok := ⟨Nat.zero_lt_succ 63, Nat.zero_lt_succ 63⟩
      exact ⟨hok, (Ringbuffer.isEmpty_iff hok).mp rfl⟩

theorem Synced.handle (h : Synced s) (frame length : Nat) :
    Synced (s.step (.handle frame length)) := by
  have hicmp : (s.step (.handle frame length)).sockets.icmp =
      if EchoReply s.mem frame length then
        s.sockets.icmp.map fun socket => ⟨socket.packets.write (frame + 34)⟩
      else s.sockets.icmp := handleFrame_icmp s.sockets s.mem frame length
  have hinbox : (s.step (.handle frame length)).inbox =
      if EchoReply s.mem frame length then
        s.inbox.map (enqueueReply (replyAt s.mem frame length))
      else s.inbox := rfl
  by_cases hecho : EchoReply s.mem frame length
  · rw [if_pos hecho] at hicmp hinbox
    refine ⟨?_, fun i socket queue hsocket hqueue => ?_⟩
    · rw [hicmp, hinbox, List.length_map, List.length_map, h.same]
    · rw [hicmp, List.getElem?_map] at hsocket
      rw [hinbox, List.getElem?_map] at hqueue
      obtain ⟨socket', hsocket', rfl⟩ := Option.map_eq_some_iff.mp hsocket
      obtain ⟨queue', hqueue', rfl⟩ := Option.map_eq_some_iff.mp hqueue
      exact (h.holds i socket' queue' hsocket' hqueue').enqueue (replyAt s.mem frame length)
  · rw [if_neg hecho] at hicmp hinbox
    refine ⟨?_, fun i socket queue hsocket hqueue => ?_⟩
    · rw [hicmp, hinbox, h.same]
    · rw [hicmp] at hsocket
      rw [hinbox] at hqueue
      exact h.holds i socket queue hsocket hqueue

theorem Synced.recv (h : Synced s) (i : Nat) (dontWait nonBlock : Bool) (len : Nat) :
    Synced (s.step (.recv i dontWait nonBlock len)) := by
  simp only [step, IcmpState.recv]
  split
  next => exact h
  next socket hsocket =>
    refine ⟨?_, fun j socket' queue' hsocket' hqueue' => ?_⟩
    · simp only [List.length_set, List.length_modify, h.same]
    · simp only [List.getElem?_set, List.getElem?_modify] at hsocket' hqueue'
      obtain ⟨queue, hqueue, rfl⟩ := Option.map_eq_some_iff.mp hqueue'
      by_cases hij : i = j
      · subst hij
        have hlt : i < s.sockets.icmp.length := (List.getElem?_eq_some_iff.mp hsocket).1
        rw [if_pos rfl, if_pos hlt] at hsocket'
        rw [if_pos rfl]
        obtain rfl := Option.some.inj hsocket'
        exact ((h.holds i socket queue hsocket hqueue).recv s.mem dontWait nonBlock len).1
      · rw [if_neg hij] at hsocket'
        rw [if_neg hij]
        exact h.holds j socket' queue hsocket' hqueue

theorem Synced.step (h : Synced s) (e : IcmpEvent) : Synced (s.step e) := by
  cases e with
  | add junk => exact h.add junk
  | handle frame length => exact h.handle frame length
  | memory mem => exact ⟨h.same, h.holds⟩
  | recv i dontWait nonBlock len => exact h.recv i dontWait nonBlock len

/-- A receive delivers its reply exactly if it can be read in full. -/
theorem Synced.delivers_iff (h : Synced s) (e : IcmpEvent) : s.Delivers e ↔ s.Readable e := by
  cases e with
  | add => exact Iff.rfl
  | handle => exact Iff.rfl
  | memory => exact Iff.rfl
  | recv i dontWait nonBlock len =>
    constructor
    · intro hd reply rest hqueue
      have hlt : i < s.sockets.icmp.length := by
        rw [← h.same]
        exact (List.getElem?_eq_some_iff.mp hqueue).1
      have hsocket : s.sockets.icmp[i]? = some s.sockets.icmp[i] := List.getElem?_eq_getElem hlt
      have hrecv := (h.holds i _ _ hsocket hqueue).recv s.mem dontWait nonBlock len
      obtain ⟨reply', rest', hqueue', hdata, -⟩ :=
        hd _ _ _ hsocket ((hrecv.2 _ _).mpr ⟨reply, rest, rfl, rfl, rfl⟩)
      rw [hqueue] at hqueue'
      cases hqueue'
      exact bytesAt_eq_take.mp hdata
    · intro hr socket ret data hsocket hmessage
      have hlt : i < s.inbox.length := by
        rw [h.same]
        exact (List.getElem?_eq_some_iff.mp hsocket).1
      have hqueue : s.inbox[i]? = some s.inbox[i] := List.getElem?_eq_getElem hlt
      have hrecv := (h.holds i _ _ hsocket hqueue).recv s.mem dontWait nonBlock len
      obtain ⟨reply, rest, hfirst, rfl, rfl⟩ := (hrecv.2 _ _).mp hmessage
      rw [hfirst] at hqueue
      have hread := hr reply rest hqueue
      refine ⟨reply, rest, hqueue, bytesAt_eq_take.mpr hread, ?_⟩
      rw [Nat.min_eq_left hread.1]

/-- What a step queues comes from what was queued, or is the reply that it handles. -/
theorem queued_of_step {e : IcmpEvent} {i : Nat} {queue : List IcmpReply}
    (hqueue : (s.step e).inbox[i]? = some queue) {reply : IcmpReply} (hreply : reply ∈ queue) :
    (∃ old, s.inbox[i]? = some old ∧ reply ∈ old) ∨
      ∃ frame length, e = .handle frame length ∧ reply = replyAt s.mem frame length := by
  cases e with
  | add junk =>
    simp only [IcmpState.step] at hqueue
    rw [List.getElem?_append] at hqueue
    split at hqueue
    next => exact Or.inl ⟨queue, hqueue, hreply⟩
    next =>
      obtain rfl := List.mem_singleton.mp (List.mem_of_getElem? hqueue)
      cases hreply
  | handle frame length =>
    simp only [IcmpState.step, IcmpState.handle] at hqueue
    split at hqueue
    next =>
      rw [List.getElem?_map] at hqueue
      obtain ⟨old, hold, rfl⟩ := Option.map_eq_some_iff.mp hqueue
      rcases List.mem_append.mp hreply with hkept | hnew
      · refine Or.inl ⟨old, hold, ?_⟩
        split at hkept
        next => exact List.mem_of_mem_tail hkept
        next => exact hkept
      · exact Or.inr ⟨frame, length, rfl, List.mem_singleton.mp hnew⟩
    next => exact Or.inl ⟨queue, hqueue, hreply⟩
  | memory mem => exact Or.inl ⟨queue, hqueue, hreply⟩
  | recv j dontWait nonBlock len =>
    simp only [IcmpState.step, IcmpState.recv] at hqueue
    split at hqueue
    next => exact Or.inl ⟨queue, hqueue, hreply⟩
    next =>
      rw [List.getElem?_modify] at hqueue
      obtain ⟨old, hold, rfl⟩ := Option.map_eq_some_iff.mp hqueue
      refine Or.inl ⟨old, hold, ?_⟩
      split at hreply
      next => exact List.mem_of_mem_tail hreply
      next => exact hreply

/-- A step that spares the queued replies leaves them intact. -/
theorem Intact.step (h : Intact s) {e : IcmpEvent} (hs : s.Spares e) : Intact (s.step e) := by
  intro i queue hqueue reply hreply k hk
  rcases queued_of_step hqueue hreply with ⟨old, hold, hmem⟩ | ⟨frame, length, rfl, rfl⟩
  · rw [hs.1 old (List.mem_of_getElem? hold) reply hmem k hk]
    exact h i old hold reply hmem k hk
  · have hk' : k < min (icmpLength s.mem frame) (length - 34) := by
      rwa [replyAt, bytesAt_length] at hk
    have hsame : (s.step (.handle frame length)).mem (frame + 34 + k) = s.mem (frame + 34 + k) := by
      simp only [IcmpState.step, IcmpState.handle]
      split
      next => exact clearChecksum_other (by omega)
      next => rfl
    simp only [replyAt]
    rw [bytesAt_get hk', hsame]

theorem Intact.readable (h : Intact s) {e : IcmpEvent} (hs : s.Spares e) : s.Readable e := by
  cases e with
  | add => trivial
  | handle => trivial
  | memory => trivial
  | recv i dontWait nonBlock len =>
    intro reply rest hqueue
    have hlen := hs.2 reply rest hqueue
    exact ⟨hlen, fun k hk => h i _ hqueue reply List.mem_cons_self k (by omega)⟩

/-- In a run from a kernel without ICMP sockets, every receive that succeeds delivers the next
reply of its socket exactly if each asks for no more than the reply and finds the bytes it asks for
where the reply arrived; so it is in runs in which no step changes a byte of a queued reply. -/
theorem recv_delivers_iff (mem : Memory) (udp : List UdpSocket) (events : List IcmpEvent) :
    (StepsMeet step Delivers (start mem udp) events ↔
      StepsMeet step Readable (start mem udp) events) ∧
    (StepsMeet step Spares (start mem udp) events →
      StepsMeet step Delivers (start mem udp) events) := by
  have hsynced : Synced (start mem udp) :=
    ⟨rfl, fun i socket queue hsocket => by cases i <;> cases hsocket⟩
  have hintact : Intact (start mem udp) := fun i queue hqueue => by cases i <;> cases hqueue
  have hkeep : ∀ s e, Synced s → Synced (step s e) := fun _ e h => h.step e
  have hsame : ∀ s e, Synced s → (Delivers s e ↔ Readable s e) := fun _ e h => h.delivers_iff e
  have hspare : ∀ s e, Intact s → Spares s e → Intact (step s e) ∧ Readable s e :=
    fun _ _ h hs => ⟨h.step hs, h.readable hs⟩
  have hiff : StepsMeet step Delivers (start mem udp) events ↔
      StepsMeet step Readable (start mem udp) events := stepsMeet_congr hkeep hsame hsynced
  exact ⟨hiff, fun hspares => hiff.mpr (hspares.of_invariant hspare hintact)⟩

/-- An echo reply with one byte behind its header. -/
def pingFrame (last : Byte) : List Byte :=
  (sendIpv4 (some ⟨fun _ => 0#8⟩) [0#8, 0#8, 0#8, 0#8, last] Ipv4Protocol.icmp 0#32 0#32).2.getD []

/-- The state after a socket was added and a reply handled. -/
def pinged : IcmpState :=
  [IcmpEvent.add fun _ => 0, .handle 0 39].foldl step (start (bufferAt (pingFrame 1#8)) [])

theorem pinged_inbox : pinged.inbox[0]?.map List.head? =
    some (some ⟨34, [0#8, 0#8, 0#8, 0#8, 1#8]⟩) := by decide +kernel

/-- A reply that is read at once. -/
theorem recv_delivers_ping : StepsMeet step Delivers (start (bufferAt (pingFrame 1#8)) [])
    [.add fun _ => 0, .handle 0 39, .recv 0 true false 5] := by
  obtain ⟨-, hspares⟩ : (_ ∧ _ : Prop) := recv_delivers_iff (bufferAt (pingFrame 1#8)) []
    [.add fun _ => 0, .handle 0 39, .recv 0 true false 5]
  apply hspares
  refine ⟨⟨fun queue hqueue => absurd hqueue List.not_mem_nil, trivial⟩, ⟨fun queue hqueue reply hreply => ?_, trivial⟩,
    ⟨fun _ _ _ _ _ _ => rfl, fun reply rest hqueue => ?_⟩, trivial⟩
  · obtain rfl := List.mem_singleton.mp hqueue
    cases hreply
  · have hreply := (congrArg (Option.map List.head?) hqueue).symm.trans pinged_inbox
    obtain rfl := Option.some.inj (Option.some.inj hreply)
    decide

/-- A second reply arrives in the buffer of the first before the first is read. -/
theorem reused_buffer_delivers_second :
    ¬StepsMeet step Delivers (start (bufferAt (pingFrame 1#8)) [])
      [.add fun _ => 0, .handle 0 39, .memory (bufferAt (pingFrame 2#8)), .recv 0 true false 5] := by
  intro h
  obtain ⟨-, -, -, hrecv, -⟩ := h
  obtain ⟨reply, rest, hqueue, hdata, -⟩ := hrecv _ _ _ rfl rfl
  have hreply := (congrArg (Option.map List.head?) hqueue).symm.trans pinged_inbox
  obtain rfl := Option.some.inj (Option.some.inj hreply)
  exact absurd hdata (by decide +kernel)

end IcmpState

end Socket

end UmbraOS
