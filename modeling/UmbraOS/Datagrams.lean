import UmbraOS.E1000Receive
import UmbraOS.Histories
import UmbraOS.UdpSocket

namespace UmbraOS

namespace Socket

/-- The datagram in a packet that passes the tests of `packet_handler`, `receive_ipv4` and
`receive_udp`, with the port it is for. -/
def datagram (packet : Packet) : Option (BitVec 16 × UdpPacket) :=
  let data := packet.data
  let ipv4 := ethernetFrameSize
  let header := clearChecksum data ipv4
  let udp := ipv4 + ipv4HeaderSize
  let len := sub64 (netWord header (ipv4 + 2)).value.toNat ipv4HeaderSize
  let length := (netWord header (udp + 4)).value.toNat
  if (netWord data 12).value = EtherType.ipv4 ∧
      ¬sub64 packet.length ethernetFrameSize < ipv4HeaderSize ∧ (data ipv4).toNat / 16 = 4 ∧
      (word data (ipv4 + 10)).value = (getChecksum header ipv4 ipv4HeaderSize).value ∧
      header (ipv4 + 9) = Ipv4Protocol.udp ∧ ¬len < udpHeaderSize ∧ length ≤ len then
    some ((netWord header (udp + 2)).value, ⟨(dword header (ipv4 + 12)).value, (word header udp).value,
      length, (List.range' (udp + udpHeaderSize) length).map header⟩)
  else none

/-- What one turn of `packet_handler` does to the UDP sockets. -/
def queueDatagram (sockets : List UdpSocket) (d : BitVec 16 × UdpPacket) : List UdpSocket :=
  match getSocket sockets d.1 with
  | none => sockets
  | some i => sockets.modify i fun socket => socket.write d.2

theorem receiveUdp_udp (sockets : Sockets) (data : Memory) (ipv4 : Nat) :
    (receiveUdp sockets data ipv4).value.udp =
      let len := sub64 (netWord data (ipv4 + 2)).value.toNat ipv4HeaderSize
      let udp := ipv4 + ipv4HeaderSize
      let length := (netWord data (udp + 4)).value.toNat
      if ¬len < udpHeaderSize ∧ length ≤ len then
        queueDatagram sockets.udp ((netWord data (udp + 2)).value, ⟨(dword data (ipv4 + 12)).value,
          (word data udp).value, length, (List.range' (udp + udpHeaderSize) length).map data⟩)
      else sockets.udp := by
  unfold receiveUdp queueDatagram
  simp only [Traced.value_bind, Traced.value_ite, Traced.value_pure]
  split
  next hshort => rw [if_neg fun h => h.1 hshort]
  next hlen =>
    split
    next hlong => rw [if_neg fun h => absurd h.2 (by omega)]
    next hfits =>
      rw [if_pos ⟨hlen, by omega⟩]
      cases getSocket sockets.udp (netWord data (ipv4 + ipv4HeaderSize + 2)).value with
      | none => rfl
      | some i =>
        simp only [Traced.value_bind, Traced.value_pure, traceAll_value]
        rfl

theorem receiveIcmp_udp (sockets : Sockets) (data : Memory) (ipv4 : Nat) :
    (receiveIcmp sockets data ipv4).value.udp = sockets.udp := by
  unfold receiveIcmp
  simp only [Traced.value_bind, Traced.value_ite, Traced.value_pure]
  split
  next => rfl
  next =>
    split
    next =>
      split
      next => rfl
      next => rfl
    next => rfl

/-- `packet_handler` queues the datagram of a packet, if it has one. -/
theorem handlePacket_udp (sockets : Sockets) (packet : Packet) :
    (handlePacket sockets packet).value.udp =
      match datagram packet with
      | none => sockets.udp
      | some d => queueDatagram sockets.udp d := by
  unfold handlePacket receiveIpv4 datagram
  rw [Traced.value_bind, Traced.value_ite]
  split
  next htype =>
    rw [Traced.value_ite]
    split
    next hshort => rw [if_neg fun h => h.2.1 hshort, Traced.value_pure]
    next hlen =>
      rw [Traced.value_bind, byte_value, Traced.value_ite]
      split
      next hversion => rw [if_neg fun h => hversion h.2.2.1, Traced.value_pure]
      next hversion =>
        rw [Traced.value_bind, Traced.value_bind, Traced.value_ite]
        split
        next hsum => rw [if_neg fun h => hsum h.2.2.2.1, Traced.value_pure]
        next hsum =>
          rw [Traced.value_bind, byte_value, Traced.value_ite]
          split
          next hicmp =>
            rw [receiveIcmp_udp, if_neg]
            intro h
            rw [hicmp] at h
            exact absurd h.2.2.2.2.1 (by decide)
          next =>
            rw [Traced.value_ite]
            split
            next hudp =>
              rw [receiveUdp_udp]
              simp only [htype, hlen, not_not.mp hversion, not_not.mp hsum, hudp, true_and,
                not_false_eq_true]
              split
              next => rfl
              next => rfl
            next hudp => rw [if_neg fun h => hudp h.2.2.2.2.1, Traced.value_pure]
  next htype => rw [if_neg fun h => htype h.1, Traced.value_pure]

end Socket

end UmbraOS
