import UmbraOS.ByteMemory
import UmbraOS.Ringbuffer
import UmbraOS.Traced
import UmbraOS.Words

namespace UmbraOS

namespace Socket

def maxEthernetFrameSize : Nat := 1518

/-! Sizes of the packed headers and offsets of their fields. -/

def ethernetFrameSize : Nat := 14

def ipv4HeaderSize : Nat := 20

def udpHeaderSize : Nat := 8

def icmpHeaderSize : Nat := 4

namespace EtherType

def ipv4 : BitVec 16 := 0x800#16

end EtherType

namespace Ipv4Protocol

def icmp : Byte := 0x1#8

def udp : Byte := 0x11#8

end Ipv4Protocol

/-- `__builtin_bswap16`. -/
def bswap16 (w : BitVec 16) : BitVec 16 := BitVec.ofNat 16 (w.toNat / 256 + w.toNat % 256 * 256)

def byte (data : Memory) (i : Nat) : Traced Byte := ⟨data i, [i]⟩

/-- A 16-bit field as the processor loads it. -/
def word (data : Memory) (i : Nat) : Traced (BitVec 16) := do
  let low ← byte data i
  let high ← byte data (i + 1)
  pure (BitVec.ofNat 16 (low.toNat + high.toNat * 256))

/-- A 16-bit field in network order. -/
def netWord (data : Memory) (i : Nat) : Traced (BitVec 16) := do
  let w ← word data i
  pure (bswap16 w)

def dword (data : Memory) (i : Nat) : Traced (BitVec 32) := do
  let low ← word data i
  let high ← word data (i + 2)
  pure (BitVec.ofNat 32 (low.toNat + high.toNat * 65536))

/-- The loop of `get_checksum`: `i` bytes are left at `ptr`. -/
def sumWords (data : Memory) : Nat → Nat → BitVec 32 → Traced (BitVec 32)
  | i + 2, ptr, checksum => do
    let w ← word data ptr
    sumWords data i (ptr + 2) (checksum + w.zeroExtend 32)
  | _, _, checksum => pure checksum

/-- The sum is folded into 16 bits and complemented. -/
def foldSum (checksum : BitVec 32) : BitVec 16 :=
  let folded := (checksum &&& 0xffff#32) + (checksum >>> 16)
  let folded := if folded.toNat > 0xffff then folded + 1 else folded
  (~~~folded).truncate 16

def getChecksum (data : Memory) (ptr size : Nat) : Traced (BitVec 16) := do
  let checksum ← sumWords data size ptr 0#32
  pure (foldSum checksum)

structure UdpPacket where
  srcIp : BitVec 32
  srcPort : BitVec 16
  length : Nat
  data : List Byte

structure UdpSocket where
  port : BitVec 16
  packets : Ringbuffer UdpPacket 64

/-- The packets of an ICMP socket are pointers to headers: offsets into the frame. -/
structure IcmpSocket where
  packets : Ringbuffer Nat 64

/-- The lists of open sockets. -/
structure Sockets where
  udp : List UdpSocket
  icmp : List IcmpSocket

/-- `UdpSocket::get_socket`, as a position in the list. -/
def getSocket (sockets : List UdpSocket) (port : BitVec 16) : Option Nat :=
  sockets.findIdx? fun socket => socket.port == port

def UdpSocket.write (socket : UdpSocket) (packet : UdpPacket) : UdpSocket :=
  { socket with packets := socket.packets.write packet }

/-- `UdpSocket::receive_udp` for an IPv4 header at `ipv4`. -/
def receiveUdp (sockets : Sockets) (data : Memory) (ipv4 : Nat) : Traced Sockets := do
  let total ← netWord data (ipv4 + 2)
  let len := sub64 total.toNat ipv4HeaderSize
  if len < udpHeaderSize then pure sockets
  else
    let udp := ipv4 + ipv4HeaderSize
    let length ← netWord data (udp + 4)
    if length.toNat > len then pure sockets
    else
      let dstPort ← netWord data (udp + 2)
      match getSocket sockets.udp dstPort with
      | none => pure sockets
      | some i =>
        let srcIp ← dword data (ipv4 + 12)
        let srcPort ← word data udp
        let length ← netWord data (udp + 4)
        let bytes ← traceAll (byte data) (List.range' (udp + udpHeaderSize) length.toNat)
        let packet := ⟨srcIp, srcPort, length.toNat, bytes⟩
        pure { sockets with udp := sockets.udp.modify i fun socket => socket.write packet }

/-- `IcmpSocket::receive_icmp` for an IPv4 header at `ipv4`. -/
def receiveIcmp (sockets : Sockets) (data : Memory) (ipv4 : Nat) : Traced Sockets := do
  let total ← netWord data (ipv4 + 2)
  let len := sub64 total.toNat ipv4HeaderSize
  if len < icmpHeaderSize then pure sockets
  else
    let icmp := ipv4 + ipv4HeaderSize
    let type ← byte data icmp
    if type = 0#8 then
      let code ← byte data (icmp + 1)
      if code = 0#8 then
        pure { sockets with icmp := sockets.icmp.map fun socket => ⟨socket.packets.write icmp⟩ }
      else pure sockets
    else pure sockets

/-- Memory after the `checksum` field of the header at `ipv4` was cleared. -/
def clearChecksum (data : Memory) (ipv4 : Nat) : Memory := data.fill (ipv4 + 10) 2 0#8

/-- `receive_ipv4` of `len` bytes at `ipv4`. -/
def receiveIpv4 (sockets : Sockets) (data : Memory) (ipv4 len : Nat) : Traced Sockets := do
  if len < ipv4HeaderSize then pure sockets
  else
    let first ← byte data ipv4
    if first.toNat / 16 ≠ 4 then pure sockets
    else
      let checksum ← word data (ipv4 + 10)
      let data := clearChecksum data ipv4
      let valid ← getChecksum data ipv4 ipv4HeaderSize
      if checksum ≠ valid then pure sockets
      else
        let protocol ← byte data (ipv4 + 9)
        if protocol = Ipv4Protocol.icmp then receiveIcmp sockets data ipv4
        else if protocol = Ipv4Protocol.udp then receiveUdp sockets data ipv4
        else pure sockets

/-- A received frame: `length` bytes at the start of `data`, and what memory holds behind. -/
structure Packet where
  data : Memory
  length : Nat

/-- What `packet_handler` does with one packet. -/
def handlePacket (sockets : Sockets) (packet : Packet) : Traced Sockets := do
  let etherType ← netWord packet.data 12
  if etherType = EtherType.ipv4 then
    receiveIpv4 sockets packet.data ethernetFrameSize (sub64 packet.length ethernetFrameSize)
  else pure sockets

end Socket

end UmbraOS
