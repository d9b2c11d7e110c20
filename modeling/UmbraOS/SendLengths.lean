import UmbraOS.E1000Transmit
import UmbraOS.IcmpSend

namespace UmbraOS

namespace Socket

open Traced

/-- `E1000::send` on memory and on the descriptor at the tail. -/
def e1000Send (mem : Memory) (desc : TxDescriptor) (data : List Byte) : Memory × TxDescriptor :=
  (mem.copy desc.addr.toNat data.length (bufferAt data),
    { desc with
      length := BitVec.ofNat 16 data.length
      cmd := Transmitter.tdescCmdEop ||| Transmitter.tdescCmdIfcs ||| Transmitter.tdescCmdRs })

/-- The frame is copied into the page of the descriptor, and the length fields of the descriptor and
of the IPv4 header are true. -/
structure SendFits (frame : List Byte) : Prop where
  inside : ∀ (mem : Memory) (desc : TxDescriptor) (x : Nat),
    x < desc.addr.toNat ∨ desc.addr.toNat + pageSize ≤ x → (e1000Send mem desc frame).1 x = mem x
  descriptor : ∀ (mem : Memory) (desc : TxDescriptor),
    (e1000Send mem desc frame).2.length.toNat = frame.length
  total : (netWord (bufferAt frame) (ethernetFrameSize + 2)).value.toNat =
    frame.length - ethernetFrameSize

/-- The length field of the UDP header is true. -/
def UdpLengthTrue (frame : List Byte) : Prop :=
  (netWord (bufferAt frame) (ethernetFrameSize + ipv4HeaderSize + 4)).value.toNat =
    frame.length - (ethernetFrameSize + ipv4HeaderSize)

theorem e1000Send_outside {mem : Memory} {desc : TxDescriptor} {frame : List Byte} {x : Nat}
    (hlen : frame.length ≤ pageSize)
    (hx : x < desc.addr.toNat ∨ desc.addr.toNat + pageSize ≤ x) :
    (e1000Send mem desc frame).1 x = mem x := by
  apply Memory.copy_outside
  omega

/-- A frame that is longer than a page changes what is behind the page. -/
theorem e1000Send_overrun {frame : List Byte} (hlen : pageSize < frame.length) (desc : TxDescriptor) :
    ∃ mem : Memory, (e1000Send mem desc frame).1 (desc.addr.toNat + pageSize) ≠
      mem (desc.addr.toNat + pageSize) := by
  refine ⟨fun _ => bufferAt frame pageSize + 1#8, ?_⟩
  have hwritten : (e1000Send (fun _ => bufferAt frame pageSize + 1#8) desc frame).1
      (desc.addr.toNat + pageSize) = bufferAt frame pageSize :=
    Memory.copy_inside (fun _ => bufferAt frame pageSize + 1#8) (bufferAt frame) hlen
  rw [hwritten]
  intro h
  have hnat := congrArg BitVec.toNat h
  have hlt := (bufferAt frame pageSize).isLt
  rw [BitVec.toNat_add, BitVec.toNat_ofNat] at hnat
  omega

/-- Up to a page all lengths fit in 16 bits. -/
theorem sendFits_iff {frame : List Byte}
    (htotal : (netWord (bufferAt frame) (ethernetFrameSize + 2)).value =
      BitVec.ofNat 16 (frame.length - ethernetFrameSize)) :
    SendFits frame ↔ frame.length ≤ pageSize := by
  constructor
  · intro hfits
    by_contra hlong
    obtain ⟨mem, hmem⟩ := e1000Send_overrun (Nat.lt_of_not_le hlong) ⟨0#64, 0#16, 0#8⟩
    exact hmem (hfits.inside mem _ _ (Or.inr (Nat.le_refl _)))
  · intro hlen
    have hpage : pageSize < 65536 := by decide
    refine ⟨fun mem desc x hx => e1000Send_outside hlen hx, fun mem desc => ?_, ?_⟩
    · show (BitVec.ofNat 16 frame.length).toNat = frame.length
      rw [BitVec.toNat_ofNat]
      omega
    · rw [htotal, BitVec.toNat_ofNat]
      omega

theorem udp_sendMsg_sent (socket : UdpSocket) (mac : MacAddress) {hdr : MsgHeader} {addr : SockAddr}
    (payload : List Byte) (hname : hdr.name = some addr) (hlen : hdr.nameLen ≠ 0)
    (hinet : addr.family = .inet) :
    socket.sendMsg (some mac) hdr payload =
      (.ok (asInt payload.length), { socket with port := 1337#16 },
        some (udpFrame mac addr.port payload)) := by
  have hcount : ∀ srcPort dstPort length,
      (udpHeader srcPort dstPort length ++ payload).length = 8 + payload.length :=
    fun _ _ _ => by rw [List.length_append]; rfl
  unfold UdpSocket.sendMsg
  simp only [hname, sendIpv4, hcount, if_neg hlen, hinet, ne_eq, not_true_eq_false, if_false,
    Int.lt_irrefl]
  rfl

/-- What `UdpSocket::send_msg` does with a header, whatever the payload is. -/
inductive UdpSends (driver : Option MacAddress) (hdr : MsgHeader) : Prop
  | refused (result : ∀ (socket : UdpSocket) (payload : List Byte),
      socket.sendMsg driver hdr payload = (.error .nosys, socket, none))
  | noDriver (result : ∀ (socket : UdpSocket) (payload : List Byte),
      socket.sendMsg driver hdr payload = (.ok (-1), { socket with port := 1337#16 }, none))
  | sent (mac : MacAddress) (addr : SockAddr) (result : ∀ (socket : UdpSocket) (payload : List Byte),
      socket.sendMsg driver hdr payload =
        (.ok (asInt payload.length), { socket with port := 1337#16 },
          some (udpFrame mac addr.port payload)))

theorem udp_sendMsg_cases (driver : Option MacAddress) (hdr : MsgHeader) : UdpSends driver hdr := by
  cases hname : hdr.name with
  | none =>
    refine .refused fun socket payload => ?_
    unfold UdpSocket.sendMsg
    simp only [hname]
  | some addr =>
    by_cases hlen : hdr.nameLen = 0
    · refine .refused fun socket payload => ?_
      unfold UdpSocket.sendMsg
      simp only [hname, if_pos hlen]
    · by_cases hinet : addr.family = .inet
      · cases driver with
        | none =>
          refine .noDriver fun socket payload => ?_
          unfold UdpSocket.sendMsg
          simp only [hname, if_neg hlen, hinet]
          rfl
        | some mac =>
          exact .sent mac addr fun socket payload =>
            udp_sendMsg_sent socket mac payload hname hlen hinet
      · refine .refused fun socket payload => ?_
        unfold UdpSocket.sendMsg
        simp only [hname, if_neg hlen, ne_eq, hinet, not_false_eq_true, if_true]

theorem holdsFrame_bufferAt (mac : MacAddress) (dstPort : BitVec 16) (payload : List Byte) :
    HoldsFrame (bufferAt (udpFrame mac dstPort payload)) mac dstPort payload := ⟨fun _ _ => rfl⟩

theorem udpFrame_fits_iff (mac : MacAddress) (dstPort : BitVec 16) (payload : List Byte) :
    SendFits (udpFrame mac dstPort payload) ∧ UdpLengthTrue (udpFrame mac dstPort payload) ↔
      payload.length ≤ 4054 := by
  have hholds := holdsFrame_bufferAt mac dstPort payload
  have hlength := udpFrame_length mac dstPort payload
  have hfits : SendFits (udpFrame mac dstPort payload) ↔ payload.length ≤ 4054 := by
    have htotal : (netWord (bufferAt (udpFrame mac dstPort payload)) 16).value =
        BitVec.ofNat 16 ((udpFrame mac dstPort payload).length - ethernetFrameSize) := by
      rw [hholds.totalLength, hlength, ethernetFrameSize]
      congr 1
      omega
    rw [sendFits_iff htotal, hlength, pageSize]
    omega
  rw [hfits, and_iff_left_iff_imp]
  intro hle
  have hfield := congrArg BitVec.toNat hholds.udpLength
  rw [BitVec.toNat_ofNat] at hfield
  unfold UdpLengthTrue
  simp only [ethernetFrameSize, ipv4HeaderSize]
  rw [hfield, hlength]
  omega

theorem icmpFrame_length (mac : MacAddress) (dst : BitVec 32) (payload : List Byte) :
    (icmpFrame mac dst payload).length = 38 + payload.length := by
  simp only [icmpFrame, ipv4Header, icmpHeader, MacAddress.bytes, bytes16, bytes32, List.length_append,
    List.length_cons, List.length_nil]
  omega

theorem icmpFrame_fits_iff (mac : MacAddress) (dst : BitVec 32) (payload : List Byte) :
    SendFits (icmpFrame mac dst payload) ↔ payload.length ≤ 4058 := by
  have hlength := icmpFrame_length mac dst payload
  have hword : (word (bufferAt (icmpFrame mac dst payload)) 16).value =
      bswap16 (BitVec.ofNat 16 (4 + payload.length + ipv4HeaderSize)) := word_bytes16 rfl rfl
  have htotal : (netWord (bufferAt (icmpFrame mac dst payload)) (ethernetFrameSize + 2)).value =
      BitVec.ofNat 16 ((icmpFrame mac dst payload).length - ethernetFrameSize) := by
    simp only [ethernetFrameSize, netWord, value_bind, value_pure]
    rw [hword, bswap16_bswap16, hlength, ipv4HeaderSize]
    congr 1
    omega
  rw [sendFits_iff htotal, hlength, pageSize]
  omega

/-- A call that succeeds has sent a frame. It fits the transmit buffer, with true lengths in its
headers and in the descriptor, exactly up to the payload that fills the page. -/
theorem sendMsg_fits_iff {socket : UdpSocket} {driver : Option MacAddress} {hdr : MsgHeader}
    {payload : List Byte} {n : Int} (hn : 0 ≤ n) :
    ((socket.sendMsg driver hdr payload).1 = .ok n →
      ∃ frame, (socket.sendMsg driver hdr payload).2.2 = some frame ∧
        (SendFits frame ∧ UdpLengthTrue frame ↔ payload.length ≤ 4054)) ∧
    ((IcmpSocket.sendMsg driver hdr payload).1 = .ok n →
      ∃ frame, (IcmpSocket.sendMsg driver hdr payload).2 = some frame ∧
        (SendFits frame ↔ payload.length ≤ 4058)) := by
  constructor
  · intro hok
    cases udp_sendMsg_cases driver hdr with
    | refused hresult =>
      rw [hresult] at hok
      cases hok
    | noDriver hresult =>
      rw [hresult] at hok
      cases hok
      exact absurd hn (by decide)
    | sent mac addr hresult =>
      rw [hresult]
      exact ⟨_, rfl, udpFrame_fits_iff _ _ _⟩
  · intro hok
    have hcases := icmp_sendMsg_cases driver hdr payload
    generalize IcmpSocket.sendMsg driver hdr payload = result at hok hcases
    cases hcases with
    | refused => cases hok
    | noDriver =>
      cases hok
      exact absurd hn (by decide)
    | sent hname => exact ⟨_, rfl, icmpFrame_fits_iff _ _ _⟩

theorem sendMsg_fits_three :
    (0 : Int) ≤ 3 ∧ (echoServer.sendMsg (some echoMac) echoHeader [1#8, 2#8, 3#8]).1 = .ok 3 ∧
      ∃ frame, (echoServer.sendMsg (some echoMac) echoHeader [1#8, 2#8, 3#8]).2.2 = some frame ∧
        (SendFits frame ∧ UdpLengthTrue frame ↔ 3 ≤ 4054) :=
  have hsent := congrArg Prod.fst (udp_sendMsg_sent echoServer echoMac [1#8, 2#8, 3#8]
    (rfl : echoHeader.name = some _) (by decide) rfl)
  have hok : asInt 3 = 3 := rfl
  ⟨by decide, hsent.trans (congrArg Except.ok hok),
    (sendMsg_fits_iff (by decide)).1 (hsent.trans (congrArg Except.ok hok))⟩

/-- A payload of one page is sent behind the transmit buffer. -/
theorem sendMsg_overruns :
    ¬∀ (socket : UdpSocket) (driver : Option MacAddress) (hdr : MsgHeader) (payload frame : List Byte)
      (n : Int), 0 ≤ n → (socket.sendMsg driver hdr payload).1 = .ok n →
      (socket.sendMsg driver hdr payload).2.2 = some frame → SendFits frame ∧ UdpLengthTrue frame := by
  intro h
  have hsent := udp_sendMsg_sent echoServer echoMac (List.replicate 4096 0#8)
    (rfl : echoHeader.name = some _) (by decide) rfl
  have hlen : (List.replicate 4096 0#8).length = 4096 := List.length_replicate
  have hok : asInt (List.replicate 4096 0#8).length = 4096 := by
    rw [hlen]
    rfl
  have hfits := h echoServer (some echoMac) echoHeader _ _ 4096 (by decide)
    ((congrArg Prod.fst hsent).trans (congrArg Except.ok hok))
    (congrArg (fun result => result.2.2) hsent)
  rw [udpFrame_fits_iff, hlen] at hfits
  exact absurd hfits (by decide)

end Socket

end UmbraOS
