import UmbraOS.SocketReads

namespace UmbraOS

namespace Socket

open Traced

/-! The header fields of a frame. -/

namespace Packet

def etherType (p : Packet) : BitVec 16 := (netWord p.data 12).value

def version (p : Packet) : Nat := (p.data 14).toNat / 16

def totalLength (p : Packet) : Nat := (netWord p.data 16).value.toNat

def protocol (p : Packet) : Byte := p.data 23

def icmpType (p : Packet) : Byte := p.data 34

def icmpCode (p : Packet) : Byte := p.data 35

def dstPort (p : Packet) : BitVec 16 := (netWord p.data 36).value

def udpLength (p : Packet) : Nat := (netWord p.data 38).value.toNat

/-- The frame gets past the checks of `receive_ipv4`. -/
def Accepted (p : Packet) : Prop :=
  ipv4HeaderSize ≤ p.length - ethernetFrameSize ∧ p.version = 4 ∧
    (word p.data 24).value = (getChecksum (clearChecksum p.data 14) 14 ipv4HeaderSize).value

/-- The headers and the lengths they announce lie inside the frame. -/
def Fits (p : Packet) : Prop :=
  14 ≤ p.length ∧ (p.etherType = EtherType.ipv4 →
    34 ≤ p.length ∧ 14 + p.totalLength ≤ p.length ∧
    (p.protocol = Ipv4Protocol.udp → 42 ≤ p.length ∧ 34 + p.udpLength ≤ p.length) ∧
    (p.protocol = Ipv4Protocol.icmp → 38 ≤ p.length))

end Packet

/-- Every byte that is read lies inside the frame, and a frame whose lengths do not fit is
delivered to no socket. -/
def StaysInside (sockets : Sockets) (p : Packet) : Prop :=
  (handlePacket sockets p).Within (· < p.length) ∧
    (¬p.Fits → (handlePacket sockets p).value = sockets)

/-- The IPv4 length passes the subtraction check of an upper header of `size` bytes. -/
def Packet.LongEnough (p : Packet) (size : Nat) : Prop :=
  p.totalLength < ipv4HeaderSize ∨ ipv4HeaderSize + size ≤ p.totalLength

/-- An ICMP message that is dropped by its length, or that is inside the frame as far as it is
read, and as a whole when a socket gets it. -/
def IcmpHarmless (sockets : Sockets) (p : Packet) : Prop :=
  p.LongEnough icmpHeaderSize → 35 ≤ p.length ∧ (p.icmpType = 0#8 → 36 ≤ p.length ∧
    (p.icmpCode = 0#8 → sockets.icmp ≠ [] → 38 ≤ p.length ∧ 14 + p.totalLength ≤ p.length))

/-- The same for a UDP datagram, with the 8 bytes behind it when a socket gets it. -/
def UdpHarmless (sockets : Sockets) (p : Packet) : Prop :=
  p.LongEnough udpHeaderSize → 40 ≤ p.length ∧ (p.LongEnough p.udpLength →
    getSocket sockets.udp p.dstPort ≠ none →
    42 + p.udpLength ≤ p.length ∧ 14 + p.totalLength ≤ p.length)

def Harmless (sockets : Sockets) (p : Packet) : Prop :=
  14 ≤ p.length ∧ (p.etherType = EtherType.ipv4 → p.Accepted →
    (p.protocol = Ipv4Protocol.icmp → IcmpHarmless sockets p) ∧
    (p.protocol = Ipv4Protocol.udp → UdpHarmless sockets p))

/-- What the unsigned subtraction of `receive_udp` and `receive_icmp` rejects. -/
theorem sub64_lt_iff {total : Nat} (size : Nat) (ht : total < 65536) (hs : size < 65536) :
    sub64 total ipv4HeaderSize < size ↔
      ¬(total < ipv4HeaderSize ∨ ipv4HeaderSize + size ≤ total) := by
  simp only [ipv4HeaderSize]
  rcases Nat.lt_or_ge total 20 with hlt | hge
  · rw [sub64_of_lt hlt]
    omega
  · rw [sub64_of_le hge (by omega)]
    omega

section Receive

variable {sockets : Sockets} {p : Packet}

theorem clear_netWord (p : Packet) {i : Nat} (h : i + 1 < 24 ∨ 26 ≤ i) :
    (netWord (clearChecksum p.data 14) i).value = (netWord p.data i).value :=
  netWord_congr (clearChecksum_other (by omega)) (clearChecksum_other (by omega))

theorem icmp_write_iff (sockets : Sockets) (header : Nat) :
    ({ sockets with icmp := sockets.icmp.map fun socket => ⟨socket.packets.write header⟩ } :
      Sockets) = sockets ↔ sockets.icmp = [] := by
  constructor
  · intro he
    have hmap := congrArg Sockets.icmp he
    cases hl : sockets.icmp with
    | nil => rfl
    | cons socket rest =>
      rw [hl] at hmap
      obtain ⟨hfirst, _⟩ := List.cons.inj hmap
      exact absurd (congrArg IcmpSocket.packets hfirst) (Ringbuffer.write_ne (by decide) header)
  · intro hnil
    simp only [hnil, List.map_nil]
    rw [← hnil]

theorem udp_write_ne {sockets : Sockets} {port : BitVec 16} {i : Nat} {packet : UdpPacket}
    (h : getSocket sockets.udp port = some i) :
    ({ sockets with udp := sockets.udp.modify i fun socket => socket.write packet } :
      Sockets) ≠ sockets := by
  intro he
  have hmod := congrArg Sockets.udp he
  obtain ⟨hlt, _⟩ := List.findIdx?_eq_some_iff_getElem.mp h
  have hget := congrArg (fun l => l[i]?) hmod
  simp only [List.getElem?_modify_eq, List.getElem?_eq_getElem hlt] at hget
  have hpackets := congrArg UdpSocket.packets (Option.some.inj hget)
  exact absurd hpackets (Ringbuffer.write_ne (by decide) packet)

/-- When `receive_icmp` stays inside the frame, and when no socket gets a packet. -/
theorem receiveIcmp_cases (sockets : Sockets) (hp : 34 ≤ p.length) :
    ((receiveIcmp sockets (clearChecksum p.data 14) 14).Within (· < p.length) ↔
      (p.LongEnough icmpHeaderSize → 35 ≤ p.length ∧ (p.icmpType = 0#8 → 36 ≤ p.length))) ∧
    ((receiveIcmp sockets (clearChecksum p.data 14) 14).value = sockets ↔
      (p.LongEnough icmpHeaderSize → p.icmpType = 0#8 → p.icmpCode = 0#8 →
        sockets.icmp = [])) := by
  have htotal : (netWord (clearChecksum p.data 14) 16).value.toNat = p.totalLength :=
    congrArg BitVec.toNat (clear_netWord p (by omega))
  have hlong : sub64 p.totalLength 20 < icmpHeaderSize ↔ ¬p.LongEnough icmpHeaderSize :=
    sub64_lt_iff _ (netWord_lt p.data 16) (by decide)
  have htype : clearChecksum p.data 14 34 = p.icmpType := clearChecksum_other (by omega)
  have hcode : clearChecksum p.data 14 35 = p.icmpCode := clearChecksum_other (by omega)
  simp only [receiveIcmp, within_bind, netWord_within, value_bind, htotal, ipv4HeaderSize,
    Nat.reduceAdd]
  by_cases hl : p.LongEnough icmpHeaderSize
  · rw [if_neg (fun hlt => hlong.mp hlt hl)]
    simp only [within_bind, byte_within, value_bind, byte_value, htype, hl, forall_true_left]
    by_cases ht : p.icmpType = 0#8
    · simp only [ht, if_true, within_bind, byte_within, value_bind, byte_value, hcode,
        forall_true_left]
      by_cases hc : p.icmpCode = 0#8
      · simp only [hc, if_true, within_pure, value_pure, icmp_write_iff, forall_true_left,
          and_true]
        omega
      · simp only [hc, if_false, within_pure, value_pure, false_implies, and_true]
        omega
    · simp only [ht, if_false, within_pure, value_pure, false_implies, and_true]
      omega
  · rw [if_pos (hlong.mpr hl)]
    simp only [within_pure, value_pure, hl, false_implies, and_true, iff_true]
    omega

/-- When `receive_udp` stays inside the frame, and when no socket gets a packet. -/
theorem receiveUdp_cases (sockets : Sockets) (hp : 34 ≤ p.length) :
    ((receiveUdp sockets (clearChecksum p.data 14) 14).Within (· < p.length) ↔
      (p.LongEnough udpHeaderSize → 40 ≤ p.length ∧ (p.LongEnough p.udpLength →
        getSocket sockets.udp p.dstPort ≠ none → 0 < p.udpLength →
          42 + p.udpLength ≤ p.length))) ∧
    ((receiveUdp sockets (clearChecksum p.data 14) 14).value = sockets ↔
      (p.LongEnough udpHeaderSize → p.LongEnough p.udpLength →
        getSocket sockets.udp p.dstPort = none)) := by
  have htotal : (netWord (clearChecksum p.data 14) 16).value.toNat = p.totalLength :=
    congrArg BitVec.toNat (clear_netWord p (by omega))
  have hlength : (netWord (clearChecksum p.data 14) 38).value.toNat = p.udpLength :=
    congrArg BitVec.toNat (clear_netWord p (by omega))
  have hport : (netWord (clearChecksum p.data 14) 36).value = p.dstPort :=
    clear_netWord p (by omega)
  have hlong : sub64 p.totalLength 20 < udpHeaderSize ↔ ¬p.LongEnough udpHeaderSize :=
    sub64_lt_iff _ (netWord_lt p.data 16) (by decide)
  have hinner : p.udpLength > sub64 p.totalLength 20 ↔ ¬p.LongEnough p.udpLength :=
    sub64_lt_iff _ (netWord_lt p.data 16) (netWord_lt p.data 38)
  simp only [receiveUdp, within_bind, netWord_within, value_bind, htotal, ipv4HeaderSize,
    Nat.reduceAdd]
  by_cases hl : p.LongEnough udpHeaderSize
  · rw [if_neg (fun hlt => hlong.mp hlt hl)]
    simp only [within_bind, netWord_within, value_bind, hlength, hl, forall_true_left,
      Nat.reduceAdd]
    by_cases hu : p.LongEnough p.udpLength
    · rw [if_neg (fun hlt => hinner.mp hlt hu)]
      simp only [within_bind, netWord_within, value_bind, hport, hu, forall_true_left,
        Nat.reduceAdd]
      cases hs : getSocket sockets.udp p.dstPort with
      | none =>
        simp only [within_pure, value_pure, ne_eq, not_true_eq_false, false_implies, and_true]
        exact ⟨fun h => by omega, fun h => by omega⟩
      | some i =>
        simp only [within_bind, netWord_within, value_bind, value_pure, within_pure, word_within,
          dword_within, traceAll_within, byte_within, hlength, udp_write_ne hs, List.mem_range'_1,
          ne_eq, reduceCtorEq, not_false_eq_true, forall_true_left, and_true, udpHeaderSize,
          Nat.reduceAdd]
        refine ⟨?_, ?_⟩
        · rintro ⟨_, hlen, _, _, _, _, hread⟩
          refine ⟨by omega, fun hpos => ?_⟩
          have hlast := hread (42 + (p.udpLength - 1)) ⟨by omega, by omega⟩
          omega
        · rintro ⟨h40, hend⟩
          refine ⟨by omega, by omega, by omega, by omega, by omega, by omega, ?_⟩
          intro m hm
          have hpos := hend (by omega)
          omega
    · rw [if_pos (hinner.mpr hu)]
      simp only [within_pure, value_pure, hu, false_implies, and_true]
      exact ⟨fun h => by omega, fun h => by omega⟩
  · rw [if_pos (hlong.mpr hl)]
    simp only [within_pure, value_pure, hl, false_implies, and_true, iff_true]
    omega

/-- The part of `receive_ipv4` behind its checks. -/
def dispatch (sockets : Sockets) (p : Packet) : Traced Sockets :=
  if p.protocol = Ipv4Protocol.icmp then receiveIcmp sockets (clearChecksum p.data 14) 14
  else if p.protocol = Ipv4Protocol.udp then receiveUdp sockets (clearChecksum p.data 14) 14
  else pure sockets

theorem checksum_within (hl : 34 ≤ p.length) :
    (getChecksum (clearChecksum p.data 14) 14 20).Within (· < p.length) :=
  getChecksum_within fun k hk => by omega

theorem receiveIpv4_accepted (sockets : Sockets) (ha : p.Accepted) (hlt : p.length < 2 ^ 64) :
    (receiveIpv4 sockets p.data 14 (sub64 p.length 14)).value = (dispatch sockets p).value ∧
    ((receiveIpv4 sockets p.data 14 (sub64 p.length 14)).Within (· < p.length) ↔
      (dispatch sockets p).Within (· < p.length)) := by
  obtain ⟨hlen, hversion, hchecksum⟩ := ha
  simp only [ipv4HeaderSize, ethernetFrameSize] at hlen hchecksum
  have hl : 34 ≤ p.length := by omega
  have hshort : ¬p.length - 14 < 20 := by omega
  have hprotocol : clearChecksum p.data 14 23 = p.protocol := clearChecksum_other (by omega)
  have hv : (p.data 14).toNat / 16 = 4 := hversion
  rw [sub64_of_le (by omega) hlt]
  simp only [receiveIpv4, ipv4HeaderSize, Nat.reduceAdd, hshort, if_false, within_bind,
    byte_within, value_bind, byte_value, hv, ne_eq, not_true_eq_false, word_within, hchecksum,
    hprotocol]
  refine ⟨rfl, ?_⟩
  have hsum := checksum_within hl
  have hreads : 14 < p.length ∧ 24 < p.length ∧ 25 < p.length ∧ 23 < p.length := by omega
  simp only [hsum, hreads, true_and]
  rfl

theorem receiveIpv4_rejected (sockets : Sockets) (ha : ¬p.Accepted) (hn : 14 ≤ p.length)
    (hlt : p.length < 2 ^ 64) :
    (receiveIpv4 sockets p.data 14 (sub64 p.length 14)).value = sockets ∧
    (receiveIpv4 sockets p.data 14 (sub64 p.length 14)).Within (· < p.length) := by
  rw [sub64_of_le hn hlt]
  simp only [Packet.Accepted, Packet.version, ipv4HeaderSize, ethernetFrameSize] at ha
  by_cases hshort : p.length - 14 < 20
  · simp only [receiveIpv4, ipv4HeaderSize, hshort, if_true, value_pure, within_pure, and_self]
  · have hl : 34 ≤ p.length := by omega
    by_cases hv : (p.data 14).toNat / 16 = 4
    · have hc : (word p.data 24).value ≠ (getChecksum (clearChecksum p.data 14) 14 20).value :=
        fun hc => ha ⟨by omega, hv, hc⟩
      have hsum := checksum_within hl
      simp only [receiveIpv4, ipv4HeaderSize, Nat.reduceAdd, hshort, if_false, within_bind,
        byte_within, value_bind, byte_value, hv, ne_eq, not_true_eq_false, word_within, hc,
        not_false_eq_true, if_true, value_pure, within_pure, hsum, true_and, and_true]
      omega
    · simp only [receiveIpv4, ipv4HeaderSize, hshort, if_false, within_bind, byte_within,
        value_bind, byte_value, hv, ne_eq, not_false_eq_true, if_true, value_pure, within_pure,
        true_and, and_true]
      omega

/-- What the property asks of the part behind the checks. -/
def DispatchInside (sockets : Sockets) (p : Packet) : Prop :=
  (dispatch sockets p).Within (· < p.length) ∧
    (¬p.Fits → (dispatch sockets p).value = sockets)

theorem icmp_inside_iff (sockets : Sockets) (hp : 34 ≤ p.length)
    (het : p.etherType = EtherType.ipv4) (hicmp : p.protocol = Ipv4Protocol.icmp) :
    DispatchInside sockets p ↔ IcmpHarmless sockets p := by
  obtain ⟨hreads, hvalue⟩ := receiveIcmp_cases sockets hp
  have hudp : p.protocol ≠ Ipv4Protocol.udp := by
    rw [hicmp]
    decide
  have hfits : p.Fits ↔ 38 ≤ p.length ∧ 14 + p.totalLength ≤ p.length := by
    constructor
    · intro hf
      exact ⟨(hf.2 het).2.2.2 hicmp, (hf.2 het).2.1⟩
    · intro h
      exact ⟨by omega, fun _ => ⟨hp, h.2, fun hu => absurd hu hudp, fun _ => h.1⟩⟩
  rw [DispatchInside, dispatch, if_pos hicmp, hreads, hvalue, hfits]
  constructor
  · rintro ⟨hr, hd⟩ hl
    refine ⟨(hr hl).1, fun ht => ⟨(hr hl).2 ht, fun hc hne => ?_⟩⟩
    by_contra hno
    exact hne (hd hno hl ht hc)
  · intro h
    refine ⟨fun hl => ⟨(h hl).1, fun ht => ((h hl).2 ht).1⟩, fun hno hl ht hc => ?_⟩
    by_contra hne
    exact hno (((h hl).2 ht).2 hc hne)

theorem udp_inside_iff (sockets : Sockets) (hp : 34 ≤ p.length)
    (het : p.etherType = EtherType.ipv4) (hudp : p.protocol = Ipv4Protocol.udp) :
    DispatchInside sockets p ↔ UdpHarmless sockets p := by
  obtain ⟨hreads, hvalue⟩ := receiveUdp_cases sockets hp
  have hicmp : p.protocol ≠ Ipv4Protocol.icmp := by
    rw [hudp]
    decide
  have hfits : p.Fits ↔ (42 ≤ p.length ∧ 34 + p.udpLength ≤ p.length) ∧
      14 + p.totalLength ≤ p.length := by
    constructor
    · intro hf
      exact ⟨(hf.2 het).2.2.1 hudp, (hf.2 het).2.1⟩
    · intro h
      exact ⟨by omega, fun _ => ⟨hp, h.2, fun _ => h.1, fun hi => absurd hi hicmp⟩⟩
  rw [DispatchInside, dispatch, if_neg hicmp, if_pos hudp, hreads, hvalue, hfits]
  constructor
  · rintro ⟨hr, hd⟩ hl
    refine ⟨(hr hl).1, fun hu hs => ?_⟩
    have hread := (hr hl).2 hu hs
    have hf : (42 ≤ p.length ∧ 34 + p.udpLength ≤ p.length) ∧
        14 + p.totalLength ≤ p.length := by
      by_contra hno
      exact hs (hd hno hl hu)
    omega
  · intro h
    refine ⟨fun hl => ⟨(h hl).1, fun hu hs hpos => ((h hl).2 hu hs).1⟩, fun hno hl hu => ?_⟩
    by_contra hs
    have hend := (h hl).2 hu hs
    exact hno ⟨⟨by omega, by omega⟩, hend.2⟩

theorem dispatch_inside_iff (sockets : Sockets) (hp : 34 ≤ p.length)
    (het : p.etherType = EtherType.ipv4) : DispatchInside sockets p ↔
      (p.protocol = Ipv4Protocol.icmp → IcmpHarmless sockets p) ∧
      (p.protocol = Ipv4Protocol.udp → UdpHarmless sockets p) := by
  by_cases hicmp : p.protocol = Ipv4Protocol.icmp
  · have hudp : p.protocol ≠ Ipv4Protocol.udp := by
      rw [hicmp]
      decide
    rw [icmp_inside_iff sockets hp het hicmp]
    exact ⟨fun h => ⟨fun _ => h, fun hu => absurd hu hudp⟩, fun h => h.1 hicmp⟩
  · by_cases hudp : p.protocol = Ipv4Protocol.udp
    · rw [udp_inside_iff sockets hp het hudp]
      exact ⟨fun h => ⟨fun hi => absurd hi hicmp, fun _ => h⟩, fun h => h.2 hudp⟩
    · have hd : dispatch sockets p = pure sockets := by
        rw [dispatch, if_neg hicmp, if_neg hudp]
      rw [DispatchInside, hd, within_pure, value_pure]
      exact ⟨fun _ => ⟨fun hi => absurd hi hicmp, fun hu => absurd hu hudp⟩,
        fun _ => ⟨trivial, fun _ => rfl⟩⟩

/-- The parser stays inside the frame exactly for the harmless frames. -/
theorem handlePacket_inside_iff (sockets : Sockets) (p : Packet)
    (hlen : p.length ≤ maxEthernetFrameSize) : StaysInside sockets p ↔ Harmless sockets p := by
  simp only [maxEthernetFrameSize] at hlen
  have htype : (netWord p.data 12).value = p.etherType := rfl
  rw [StaysInside, Harmless, handlePacket, within_bind, netWord_within, value_bind, htype]
  rcases Nat.lt_or_ge p.length 14 with hshort | hn
  · constructor
    · intro h
      have hread := h.1.1.2
      omega
    · intro h
      omega
  · by_cases het : p.etherType = EtherType.ipv4
    · rw [if_pos het]
      by_cases ha : p.Accepted
      · have hp : 34 ≤ p.length := by
          have hfirst := ha.1
          simp only [ipv4HeaderSize, ethernetFrameSize] at hfirst
          omega
        obtain ⟨hvalue, hreads⟩ := receiveIpv4_accepted sockets ha (by omega)
        have hin := dispatch_inside_iff sockets hp het
        simp only [ethernetFrameSize, hvalue, hreads]
        constructor
        · rintro ⟨⟨_, hr⟩, hd⟩
          exact ⟨hn, fun _ _ => hin.mp ⟨hr, hd⟩⟩
        · rintro ⟨_, h⟩
          obtain ⟨hr, hd⟩ := hin.mpr (h het ha)
          exact ⟨⟨⟨by omega, by omega⟩, hr⟩, hd⟩
      · obtain ⟨hvalue, hreads⟩ := receiveIpv4_rejected sockets ha hn (by omega)
        simp only [ethernetFrameSize, hvalue]
        exact ⟨fun _ => ⟨hn, fun _ hacc => absurd hacc ha⟩,
          fun _ => ⟨⟨⟨by omega, by omega⟩, hreads⟩, fun _ => trivial⟩⟩
    · rw [if_neg het, within_pure, value_pure]
      exact ⟨fun _ => ⟨hn, fun hi => absurd hi het⟩,
        fun _ => ⟨⟨⟨by omega, by omega⟩, trivial⟩, fun _ => rfl⟩⟩

end Receive

/-- A frame that carries an empty datagram from port 1337 to port 7. -/
def emptyDatagram : List Byte :=
  [0xff, 0xff, 0xff, 0xff, 0xff, 0xff, 0x52, 0x54, 0x00, 0x12, 0x34, 0x56, 0x08, 0x00,
    0x45, 0x00, 0x00, 0x1c, 0x00, 0x00, 0x00, 0x00, 0x40, 0x11, 0xb8, 0x2b,
    0x00, 0x00, 0x00, 0x00, 0xc0, 0xa8, 0x01, 0xfe,
    0x05, 0x39, 0x00, 0x07, 0x00, 0x08, 0x00, 0x00]

def emptyPacket : Packet := ⟨fun i => emptyDatagram.getD i 0#8, 42⟩

def oneSocket : Sockets := ⟨[⟨7#16, ⟨fun _ => ⟨0#32, 0#16, 0, []⟩, 0, 0⟩⟩], []⟩

theorem emptyPacket_inside_iff :
    StaysInside oneSocket emptyPacket ↔ Harmless oneSocket emptyPacket :=
  handlePacket_inside_iff oneSocket emptyPacket (by decide)

/-- The copy reads 8 bytes behind the frame. -/
theorem emptyPacket_leaves_frame :
    emptyPacket.length ≤ maxEthernetFrameSize ∧ ¬StaysInside oneSocket emptyPacket := by
  refine ⟨by decide, fun h => ?_⟩
  have hread : 49 ∈ (handlePacket oneSocket emptyPacket).reads := by decide
  have hlt : 49 < emptyPacket.length := h.1 49 hread
  exact absurd hlt (by decide)

end Socket

end UmbraOS
