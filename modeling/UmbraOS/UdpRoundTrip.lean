import Mathlib.Data.List.GetD
import Mathlib.Tactic.IntervalCases
import UmbraOS.SocketBounds
import UmbraOS.UdpSocket

namespace UmbraOS

namespace Socket

open Traced

theorem bswap16_bswap16 (w : BitVec 16) : bswap16 (bswap16 w) = w := by
  apply BitVec.eq_of_toNat_eq
  have hw := w.isLt
  have hin : (bswap16 w).toNat = w.toNat / 256 + w.toNat % 256 * 256 := by
    rw [bswap16, BitVec.toNat_ofNat]
    exact Nat.mod_eq_of_lt (by omega)
  have hhigh : (w.toNat / 256 + w.toNat % 256 * 256) / 256 = w.toNat % 256 := by omega
  have hlow : (w.toNat / 256 + w.toNat % 256 * 256) % 256 = w.toNat / 256 := by omega
  rw [bswap16, BitVec.toNat_ofNat, hin, hhigh, hlow, Nat.mod_eq_of_lt (by omega)]
  omega

/-- Loading a stored 16-bit value gives it back. -/
theorem word_bytes16 {data : Memory} {i : Nat} {w : BitVec 16}
    (h : data i = BitVec.ofNat 8 w.toNat) (h' : data (i + 1) = BitVec.ofNat 8 (w.toNat / 256)) :
    (word data i).value = w := by
  apply BitVec.eq_of_toNat_eq
  have hw := w.isLt
  simp only [word, value_bind, byte_value, value_pure, h, h', BitVec.toNat_ofNat]
  omega

theorem sumWords_congr {data data' : Memory} {size ptr ptr' : Nat} {checksum : BitVec 32}
    (h : ∀ k, k < size → data (ptr + k) = data' (ptr' + k)) :
    (sumWords data size ptr checksum).value = (sumWords data' size ptr' checksum).value := by
  induction size, ptr, checksum using sumWords.induct generalizing ptr' with
  | case1 size ptr checksum ih =>
    have hfirst := h 0 (by omega)
    have hsecond := h 1 (by omega)
    have hw : (word data ptr).value = (word data' ptr').value := by
      simp only [Nat.add_zero] at hfirst
      simp only [word, value_bind, byte_value, value_pure, hfirst, hsecond]
    simp only [sumWords, value_bind, hw]
    refine ih _ fun k hk => ?_
    have hk' := h (2 + k) (by omega)
    rwa [← Nat.add_assoc, ← Nat.add_assoc] at hk'
  | case2 size ptr checksum hsmall =>
    rw [sumWords, sumWords]
    · exact hsmall
    · exact hsmall

theorem getChecksum_congr {data data' : Memory} {size ptr ptr' : Nat}
    (h : ∀ k, k < size → data (ptr + k) = data' (ptr' + k)) :
    (getChecksum data ptr size).value = (getChecksum data' ptr' size).value := by
  simp only [getChecksum, value_bind, value_pure, sumWords_congr h]

/-- The frame of a datagram. -/
def udpFrame (mac : MacAddress) (dstPort : BitVec 16) (payload : List Byte) : List Byte :=
  let header := ipv4Header (8 + payload.length) Ipv4Protocol.udp
  let src := ipv4Address 0 0 0 0
  let dst := ipv4Address 192 168 1 254
  broadcast.bytes ++ mac.bytes ++ bytes16 (bswap16 EtherType.ipv4) ++
    header (getChecksum (bufferAt (header 0#16 src dst)) 0 ipv4HeaderSize).value src dst ++
    (udpHeader (bswap16 1337#16) dstPort (bswap16 (BitVec.ofNat 16 (8 + payload.length))) ++
      payload)

theorem sendMsg_frame {socket : UdpSocket} {driver : Option MacAddress} {hdr : MsgHeader}
    {payload frame : List Byte} (h : (socket.sendMsg driver hdr payload).2.2 = some frame) :
    ∃ mac addr, driver = some mac ∧ hdr.name = some addr ∧
      frame = udpFrame mac addr.port payload := by
  unfold UdpSocket.sendMsg at h
  split at h
  next => cases h
  next addr hname =>
    split at h
    next => cases h
    next =>
      split at h
      next => cases h
      next =>
        cases driver with
        | none => cases h
        | some mac =>
          refine ⟨mac, addr, rfl, hname, ?_⟩
          simp only [sendIpv4, udpHeaderSize, List.length_append, udpHeader, bytes16,
            List.length_cons, List.length_nil] at h
          split at h
          next hneg => exact absurd hneg (by decide)
          next => exact (Option.some.inj h).symm

section Frame

variable {mac : MacAddress} {dstPort : BitVec 16} {payload : List Byte} {data : Memory}

theorem udpFrame_length (mac : MacAddress) (dstPort : BitVec 16) (payload : List Byte) :
    (udpFrame mac dstPort payload).length = 42 + payload.length := by
  simp only [udpFrame, ipv4Header, udpHeader, MacAddress.bytes, bytes16, bytes32, List.length_append,
    List.length_cons, List.length_nil]
  omega

/-- The header bytes of a frame in memory. -/
structure HoldsFrame (data : Memory) (mac : MacAddress) (dstPort : BitVec 16)
    (payload : List Byte) : Prop where
  bytes : ∀ k, k < (udpFrame mac dstPort payload).length →
    data k = (udpFrame mac dstPort payload).getD k 0#8

theorem HoldsFrame.header (h : HoldsFrame data mac dstPort payload) {k : Nat} (hk : k < 42) :
    data k = (udpFrame mac dstPort payload).getD k 0#8 := by
  refine h.bytes k ?_
  rw [udpFrame_length]
  omega

theorem HoldsFrame.payloadByte (h : HoldsFrame data mac dstPort payload) {k : Nat}
    (hk : k < payload.length) : data (42 + k) = payload.getD k 0#8 := by
  rw [h.bytes (42 + k) (by rw [udpFrame_length]; omega), udpFrame,
    List.getD_append_right _ _ _ _ (by simp only [ipv4Header, MacAddress.bytes, bytes16, bytes32,
      List.length_append, List.length_cons, List.length_nil]; omega),
    List.getD_append_right _ _ _ _ (by simp only [udpHeader, ipv4Header, MacAddress.bytes, bytes16,
      bytes32, List.length_append, List.length_cons, List.length_nil]; omega)]
  congr 1
  simp only [udpHeader, ipv4Header, MacAddress.bytes, bytes16, bytes32, List.length_append,
    List.length_cons, List.length_nil]
  omega

theorem HoldsFrame.version (h : HoldsFrame data mac dstPort payload) : data 14 = 0x45#8 := by
  rw [h.header (by omega)]
  rfl

theorem HoldsFrame.protocol (h : HoldsFrame data mac dstPort payload) :
    data 23 = Ipv4Protocol.udp := by
  rw [h.header (by omega)]
  rfl

theorem HoldsFrame.totalLength (h : HoldsFrame data mac dstPort payload) :
    (netWord data 16).value = BitVec.ofNat 16 (8 + payload.length + 20) := by
  have hword : (word data 16).value =
      bswap16 (BitVec.ofNat 16 (8 + payload.length + ipv4HeaderSize)) :=
    word_bytes16 (h.header (by omega)) (h.header (by omega))
  rw [netWord, value_bind, value_pure, hword, bswap16_bswap16]
  rfl

theorem HoldsFrame.udpLength (h : HoldsFrame data mac dstPort payload) :
    (netWord data 38).value = BitVec.ofNat 16 (8 + payload.length) := by
  have hword : (word data 38).value = bswap16 (BitVec.ofNat 16 (8 + payload.length)) :=
    word_bytes16 (h.header (by omega)) (h.header (by omega))
  rw [netWord, value_bind, value_pure, hword, bswap16_bswap16]

theorem HoldsFrame.destination (h : HoldsFrame data mac dstPort payload) :
    (netWord data 36).value = bswap16 dstPort := by
  have hword : (word data 36).value = dstPort :=
    word_bytes16 (h.header (by omega)) (h.header (by omega))
  rw [netWord, value_bind, value_pure, hword]

theorem HoldsFrame.checksum (h : HoldsFrame data mac dstPort payload) :
    (word data 24).value = (getChecksum (clearChecksum data 14) 14 20).value := by
  have hsent : (word data 24).value = (getChecksum (bufferAt (ipv4Header (8 + payload.length)
      Ipv4Protocol.udp 0#16 (ipv4Address 0 0 0 0) (ipv4Address 192 168 1 254))) 0
      ipv4HeaderSize).value :=
    word_bytes16 (h.header (by omega)) (h.header (by omega))
  rw [hsent, ipv4HeaderSize]
  refine getChecksum_congr fun k hk => ?_
  rw [Nat.zero_add]
  by_cases hzero : 10 ≤ k ∧ k < 12
  · rw [clearChecksum, Memory.fill_inside _ _ (by omega) (by omega)]
    obtain rfl | rfl : k = 10 ∨ k = 11 := by omega
    · rfl
    · rfl
  · rw [clearChecksum_other (by omega), h.header (by omega)]
    interval_cases k <;> first | rfl | omega

theorem HoldsFrame.accepted (h : HoldsFrame data mac dstPort payload) :
    (⟨data, 42 + payload.length⟩ : Packet).Accepted := by
  refine ⟨?_, ?_, h.checksum⟩
  · simp only [ipv4HeaderSize, ethernetFrameSize]
    omega
  · simp only [Packet.version, h.version]
    rfl

theorem HoldsFrame.dispatch (h : HoldsFrame data mac dstPort payload) (sockets : Sockets) :
    dispatch sockets ⟨data, 42 + payload.length⟩ =
      receiveUdp sockets (clearChecksum data 14) 14 := by
  have hp : (⟨data, 42 + payload.length⟩ : Packet).protocol = Ipv4Protocol.udp := h.protocol
  have hne : ¬Ipv4Protocol.udp = Ipv4Protocol.icmp := by decide
  rw [Socket.dispatch, hp, if_neg hne, if_pos rfl]

/-- The receiver copies 8 bytes more than the datagram has. -/
theorem HoldsFrame.overrun (h : HoldsFrame data mac dstPort payload) {sockets : Sockets} {i : Nat}
    (hlen : payload.length < 65508) (hport : getSocket sockets.udp (bswap16 dstPort) = some i) :
    ¬(receiveIpv4 sockets data 14 (28 + payload.length)).Within (· < 42 + payload.length) := by
  have haccepted := h.accepted
  have hdispatch := h.dispatch sockets
  generalize hp : (⟨data, 42 + payload.length⟩ : Packet) = p at haccepted hdispatch
  have hdata : p.data = data := by rw [← hp]
  have hlength : p.length = 42 + payload.length := by rw [← hp]
  have hrest : sub64 p.length 14 = 28 + payload.length := by
    rw [hlength, sub64_of_le (by omega) (by omega)]
    omega
  have htotal : p.totalLength = 28 + payload.length := by
    rw [Packet.totalLength, hdata, h.totalLength, BitVec.toNat_ofNat, Nat.mod_eq_of_lt (by omega)]
    omega
  have hudp : p.udpLength = 8 + payload.length := by
    rw [Packet.udpLength, hdata, h.udpLength, BitVec.toNat_ofNat, Nat.mod_eq_of_lt (by omega)]
  have hsocket : getSocket sockets.udp p.dstPort ≠ none := by
    rw [Packet.dstPort, hdata, h.destination, hport]
    exact fun he => by cases he
  have houter : p.LongEnough udpHeaderSize := by
    right
    rw [htotal, ipv4HeaderSize, udpHeaderSize]
    omega
  have hinner : p.LongEnough p.udpLength := by
    right
    rw [htotal, hudp, ipv4HeaderSize]
    omega
  obtain ⟨_, hreads⟩ := receiveIpv4_accepted sockets haccepted (by omega)
  obtain ⟨hudpReads, _⟩ := receiveUdp_cases sockets (show 34 ≤ p.length by omega)
  rw [hdispatch, ← hdata, hudpReads, hrest, hlength, hdata] at hreads
  intro hin
  have hend := (hreads.mp hin houter).2 hinner hsocket (by omega)
  omega

/-- The packet that the receiver queues: its data runs 8 bytes past the payload. -/
def queuedPacket (data : Memory) (payload : List Byte) : UdpPacket where
  srcIp := (dword (clearChecksum data 14) 26).value
  srcPort := (word (clearChecksum data 14) 34).value
  length := 8 + payload.length
  data := (List.range' 42 (8 + payload.length)).map (clearChecksum data 14)

theorem HoldsFrame.queued (h : HoldsFrame data mac dstPort payload) {sockets : Sockets} {i : Nat}
    (hlen : payload.length < 65508) (hport : getSocket sockets.udp (bswap16 dstPort) = some i) :
    (receiveIpv4 sockets data 14 (28 + payload.length)).value =
      { sockets with udp := sockets.udp.modify i fun socket =>
          socket.write (queuedPacket data payload) } := by
  have hrest : sub64 (42 + payload.length) 14 = 28 + payload.length := by
    rw [sub64_of_le (by omega) (by omega)]
    omega
  have hvalue := (receiveIpv4_accepted sockets h.accepted (by simp only; omega)).1
  have htotal : (netWord (clearChecksum data 14) 16).value.toNat = 28 + payload.length := by
    rw [clear_netWord ⟨data, 0⟩ (by omega), h.totalLength, BitVec.toNat_ofNat,
      Nat.mod_eq_of_lt (by omega)]
    omega
  have hudp : (netWord (clearChecksum data 14) 38).value.toNat = 8 + payload.length := by
    rw [clear_netWord ⟨data, 0⟩ (by omega), h.udpLength, BitVec.toNat_ofNat,
      Nat.mod_eq_of_lt (by omega)]
  have hdst : (netWord (clearChecksum data 14) 36).value = bswap16 dstPort := by
    rw [clear_netWord ⟨data, 0⟩ (by omega), h.destination]
  have hsub : sub64 (28 + payload.length) 20 = 8 + payload.length := by
    rw [sub64_of_le (by omega) (by omega)]
    omega
  have hshort : ¬8 + payload.length < 8 := by omega
  have hover : ¬8 + payload.length > 8 + payload.length := Nat.lt_irrefl _
  rw [h.dispatch] at hvalue
  rw [← hrest, hvalue]
  simp only [receiveUdp, value_bind, htotal, ipv4HeaderSize, udpHeaderSize, Nat.reduceAdd, hsub,
    hshort, hover, if_false, hudp, hdst, hport, value_pure, traceAll_value, byte_value,
    queuedPacket]

/-- The data of the queued packet starts with the payload. -/
theorem HoldsFrame.queued_data (h : HoldsFrame data mac dstPort payload) {n : Nat}
    (hn : payload.length ≤ n) :
    ((queuedPacket data payload).data.take n).take payload.length = payload := by
  rw [List.take_take, Nat.min_eq_left hn]
  apply List.ext_getElem
  · simp only [queuedPacket, List.length_take, List.length_map, List.length_range']
    omega
  · intro k hk hk'
    have hbyte := h.payloadByte hk'
    rw [List.getD_eq_getElem _ _ hk'] at hbyte
    simp only [queuedPacket, List.getElem_take, List.getElem_map, List.getElem_range', Nat.one_mul]
    rw [clearChecksum_other (by omega), hbyte]

end Frame

/-- What a receiver with an empty queue gets: up to 8 bytes more than the payload. -/
theorem udp_delivers_padded {sender : UdpSocket} {driver : Option MacAddress} {hdr : MsgHeader}
    {addr : SockAddr} {payload frame : List Byte} {data : Memory} {sockets : Sockets} {i : Nat}
    {receiver : UdpSocket} (hsend : (sender.sendMsg driver hdr payload).2.2 = some frame)
    (hname : hdr.name = some addr) (hfit : frame.length ≤ maxEthernetFrameSize)
    (hdata : ∀ k, k < frame.length → data k = frame.getD k 0#8)
    (hport : getSocket sockets.udp (bswap16 addr.port) = some i)
    (hreceiver : sockets.udp[i]? = some receiver) (hok : receiver.packets.Ok)
    (hempty : receiver.packets.contents = []) :
    ∃ socket, (receiveIpv4 sockets data 14 (frame.length - 14)).value.udp[i]? = some socket ∧
      ∀ len dontWait nonBlock, payload.length ≤ len → ∃ bytes src,
        (socket.recvMsg dontWait nonBlock len).1 =
          .message (min len (8 + payload.length)) bytes src ∧
        bytes.take payload.length = payload := by
  obtain ⟨mac, addr', _, hname', rfl⟩ := sendMsg_frame hsend
  rw [hname] at hname'
  obtain rfl := Option.some.inj hname'
  have hholds : HoldsFrame data mac addr.port payload := ⟨hdata⟩
  rw [udpFrame_length, maxEthernetFrameSize] at hfit
  rw [udpFrame_length, show 42 + payload.length - 14 = 28 + payload.length by omega,
    hholds.queued (by omega) hport]
  refine ⟨receiver.write (queuedPacket data payload), ?_, ?_⟩
  · simp only [List.getElem?_modify_eq, hreceiver]
    rfl
  · intro len dontWait nonBlock hlen
    have hlength : receiver.packets.length + 1 ≠ 64 := by
      rw [Ringbuffer.contents, List.map_eq_nil_iff, List.range_eq_nil] at hempty
      omega
    have hcontents := Ringbuffer.write_contents hok (by decide) (queuedPacket data payload)
    rw [if_neg hlength, hempty, List.nil_append] at hcontents
    obtain ⟨hread, _⟩ := Ringbuffer.read_contents (Ringbuffer.write_ok hok _) hcontents
    have hmin : payload.length ≤ min len (8 + payload.length) := by omega
    have hqueued := hholds.queued_data hmin
    rcases hr : (receiver.packets.write (queuedPacket data payload)).read with ⟨item, packets⟩
    rw [hr] at hread
    simp only at hread
    subst hread
    refine ⟨_, ⟨.inet, (queuedPacket data payload).srcPort, (queuedPacket data payload).srcIp⟩,
      ?_, hqueued⟩
    simp only [UdpSocket.recvMsg, UdpSocket.write, hr]
    rfl

/-- The frame that was sent, in memory with anything behind it, is received without a read
behind its end, and the receiver then reads the payload into every buffer that can hold it. -/
def RoundTrips (payload frame : List Byte) (data : Memory) (sockets : Sockets) (i : Nat) :
    Prop :=
  (receiveIpv4 sockets data 14 (frame.length - 14)).Within (· < frame.length) ∧
    ∃ socket, (receiveIpv4 sockets data 14 (frame.length - 14)).value.udp[i]? = some socket ∧
      ∀ len, payload.length ≤ len → ∀ dontWait nonBlock, ∃ src,
        (socket.recvMsg dontWait nonBlock len).1 = .message payload.length payload src

/-- The queued length counts the header, so 8 bytes behind the datagram are copied. -/
theorem udp_never_round_trips {sender : UdpSocket} {driver : Option MacAddress}
    {hdr : MsgHeader} {addr : SockAddr} {payload frame : List Byte} {data : Memory}
    {sockets : Sockets} {i : Nat}
    (hsend : (sender.sendMsg driver hdr payload).2.2 = some frame) (hname : hdr.name = some addr)
    (hfit : frame.length ≤ maxEthernetFrameSize)
    (hdata : ∀ k, k < frame.length → data k = frame.getD k 0#8)
    (hport : getSocket sockets.udp (bswap16 addr.port) = some i) :
    ¬RoundTrips payload frame data sockets i := by
  obtain ⟨mac, addr', _, hname', rfl⟩ := sendMsg_frame hsend
  rw [hname] at hname'
  obtain rfl := Option.some.inj hname'
  have hholds : HoldsFrame data mac addr.port payload := ⟨hdata⟩
  rw [udpFrame_length, maxEthernetFrameSize] at hfit
  have hover := hholds.overrun (by omega) hport
  intro h
  have hin := h.1
  rw [udpFrame_length, show 42 + payload.length - 14 = 28 + payload.length by omega] at hin
  exact hover hin

/-- One byte for port 7. -/
def echoHeader : MsgHeader := ⟨some ⟨.inet, 0x700#16, 0#32⟩, 16⟩

def echoMac : MacAddress := ⟨fun i => BitVec.ofNat 8 (0x52 + i.val)⟩

def echoFrame : List Byte := udpFrame echoMac 0x700#16 [0x2a#8]

def echoServer : UdpSocket := ⟨7#16, ⟨fun _ => ⟨0#32, 0#16, 0, []⟩, 0, 0⟩⟩

theorem echoFrame_sent :
    (echoServer.sendMsg (some echoMac) echoHeader [0x2a#8]).2.2 = some echoFrame := rfl

theorem echoFrame_never_round_trips :
    ¬RoundTrips [0x2a#8] echoFrame (bufferAt echoFrame) ⟨[echoServer], []⟩ 0 :=
  udp_never_round_trips echoFrame_sent rfl (by decide) (fun _ _ => rfl) (by decide)

/-- The read behind the frame, in the run itself. -/
theorem echoFrame_overrun :
    ¬RoundTrips [0x2a#8] echoFrame (bufferAt echoFrame) ⟨[echoServer], []⟩ 0 := by
  intro h
  have hread : 50 ∈
      (receiveIpv4 ⟨[echoServer], []⟩ (bufferAt echoFrame) 14 (echoFrame.length - 14)).reads := by
    decide
  have hlt : 50 < echoFrame.length := h.1 50 hread
  exact absurd hlt (by decide)

end Socket

end UmbraOS
