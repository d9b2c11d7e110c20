import UmbraOS.SocketReads

namespace UmbraOS

namespace Socket

structure MacAddress where
  data : Fin 6 → Byte

def MacAddress.bytes (mac : MacAddress) : List Byte :=
  [mac.data 0, mac.data 1, mac.data 2, mac.data 3, mac.data 4, mac.data 5]

def broadcast : MacAddress := ⟨fun _ => 0xff#8⟩

/-- The bytes of a 16-bit value in memory order. -/
def bytes16 (w : BitVec 16) : List Byte := [BitVec.ofNat 8 w.toNat, BitVec.ofNat 8 (w.toNat / 256)]

def bytes32 (w : BitVec 32) : List Byte :=
  [BitVec.ofNat 8 w.toNat, BitVec.ofNat 8 (w.toNat / 2 ^ 8), BitVec.ofNat 8 (w.toNat / 2 ^ 16),
    BitVec.ofNat 8 (w.toNat / 2 ^ 24)]

/-- `Ipv4Address(part1, part2, part3, part4)`. -/
def ipv4Address (part1 part2 part3 part4 : Nat) : BitVec 32 :=
  BitVec.ofNat 32 (part1 + part2 * 2 ^ 8 + part3 * 2 ^ 16 + part4 * 2 ^ 24)

/-- Memory that holds a buffer at address 0. -/
def bufferAt (bytes : List Byte) : Memory := fun i => bytes.getD i 0#8

/-- The header `send_ipv4` fills in: version 4 with 5 words, a time to live of 64 hops. -/
def ipv4Header (len : Nat) (protocol : Byte) (checksum : BitVec 16) (src dst : BitVec 32) :
    List Byte :=
  [0x45#8, 0#8] ++ bytes16 (bswap16 (BitVec.ofNat 16 (len + ipv4HeaderSize))) ++
    [0#8, 0#8, 0#8, 0#8, 64#8, protocol] ++ bytes16 checksum ++ bytes32 src ++ bytes32 dst

/-- `send_ipv4`: the result and the frame handed to the driver, whose address is `driver`. -/
def sendIpv4 (driver : Option MacAddress) (data : List Byte) (protocol : Byte)
    (src dst : BitVec 32) : Int × Option (List Byte) :=
  match driver with
  | none => (-1, none)
  | some mac =>
    let header := ipv4Header data.length protocol 0#16 src dst
    let checksum := (getChecksum (bufferAt header) 0 ipv4HeaderSize).value
    (0, some (broadcast.bytes ++ mac.bytes ++ bytes16 (bswap16 EtherType.ipv4) ++
      ipv4Header data.length protocol checksum src dst ++ data))

inductive Errno
  | nosys
  | again
  | wouldBlock
deriving DecidableEq

inductive Family
  | inet
  | other
deriving DecidableEq

/-- `sockaddr_in`, with the port in network order. -/
structure SockAddr where
  family : Family
  port : BitVec 16
  addr : BitVec 32

/-- `msg_name` and `msg_namelen` of a message header. -/
structure MsgHeader where
  name : Option SockAddr
  nameLen : Nat

def udpHeader (srcPort dstPort length : BitVec 16) : List Byte :=
  bytes16 srcPort ++ bytes16 dstPort ++ bytes16 length ++ bytes16 0#16

/-- A `size_t` that is returned as an `int`. -/
def asInt (n : Nat) : Int := (BitVec.ofNat 32 n).toInt

/-- `UdpSocket::send_msg`: the result, the socket and the frame. -/
def UdpSocket.sendMsg (socket : UdpSocket) (driver : Option MacAddress) (hdr : MsgHeader)
    (data : List Byte) : Except Errno Int × UdpSocket × Option (List Byte) :=
  match hdr.name with
  | none => (.error .nosys, socket, none)
  | some addr =>
    if hdr.nameLen = 0 then (.error .nosys, socket, none)
    else if addr.family ≠ .inet then (.error .nosys, socket, none)
    else
      let socket := { socket with port := 1337#16 }
      let header := udpHeader (bswap16 socket.port) addr.port
        (bswap16 (BitVec.ofNat 16 (udpHeaderSize + data.length)))
      let (res, frame) := sendIpv4 driver (header ++ data) Ipv4Protocol.udp
        (ipv4Address 0 0 0 0) (ipv4Address 192 168 1 254)
      if res < 0 then (.ok res, socket, frame) else (.ok (asInt data.length), socket, frame)

inductive RecvResult
  | error (e : Errno)
  /-- The task waits for a packet. -/
  | wait
  /-- The returned length, the bytes written to the buffer and the sender. -/
  | message (length : Nat) (data : List Byte) (src : SockAddr)

/-- `UdpSocket::recv_msg` into a buffer of `len` bytes. -/
def UdpSocket.recvMsg (socket : UdpSocket) (dontWait nonBlock : Bool) (len : Nat) :
    RecvResult × UdpSocket :=
  match socket.packets.read with
  | (none, _) =>
    if dontWait then (.error .again, socket)
    else if nonBlock then (.error .wouldBlock, socket)
    else (.wait, socket)
  | (some packet, packets) =>
    let dataLength := min len packet.length
    (.message dataLength (packet.data.take dataLength)
      ⟨.inet, packet.srcPort, packet.srcIp⟩, { socket with packets := packets })

end Socket

end UmbraOS
