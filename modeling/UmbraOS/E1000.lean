import UmbraOS.Ringbuffer
import UmbraOS.Socket

namespace UmbraOS

/-- What the network card receives; the length field of a descriptor can hold its length. -/
structure Frame where
  bytes : List Byte
  short : bytes.length < 2 ^ 16

/-- The fields of a receive descriptor that the driver reads. -/
structure RxDescriptor where
  addr : BitVec 64
  length : BitVec 16
  status : Byte

/-- How far a run of the handler is: the next register, descriptor or buffer it accesses. -/
inductive HandlerPoint
  | idle
  | readIcr
  | readTail
  | compareHead
  | readDescriptor
  | copyBuffer (desc : RxDescriptor)
  | writeTail

/-- The receive side of the driver and of the card. `buffers` gives the page at an address.
`stored` and `written` are not in the source: they record the frames the card has stored and
the packets written to `cache`. -/
structure E1000 where
  rdh : Nat
  rdt : Nat
  icrRxt0 : Bool
  rxDescriptors : Nat → RxDescriptor
  buffers : BitVec 64 → Memory
  rxTail : Nat
  cache : Ringbuffer Socket.Packet 64
  point : HandlerPoint
  stored : List Frame
  written : List Socket.Packet

inductive E1000Event
  | arrival (frame : Frame)
  | interrupt
  | handler

namespace E1000

def numRxDescs : Nat := 256

def rdescStatusDd : Byte := 1#8

/-- `init_receive`, with the pages it allocates for the buffers. -/
def initReceive (addr : Nat → BitVec 64) (buffers : BitVec 64 → Memory)
    (cache : Ringbuffer Socket.Packet 64) : E1000 where
  rdh := 0
  rdt := numRxDescs - 1
  icrRxt0 := false
  rxDescriptors i := ⟨addr i, 0#16, 0#8⟩
  buffers := buffers
  rxTail := 0
  cache := cache
  point := .idle
  stored := []
  written := []

/-- The card writes a frame to the descriptor at the head, and drops it when there is none. -/
def receive (e : E1000) (frame : Frame) : E1000 :=
  if e.rdh = e.rdt then e
  else
    let desc := e.rxDescriptors e.rdh
    { e with
      rxDescriptors := fun i =>
        if i = e.rdh then ⟨desc.addr, BitVec.ofNat 16 frame.bytes.length, desc.status ||| rdescStatusDd⟩
        else e.rxDescriptors i
      buffers := fun a =>
        if a = desc.addr then fun i => frame.bytes.getD i (e.buffers a i) else e.buffers a
      rdh := (e.rdh + 1) % numRxDescs
      icrRxt0 := true
      stored := e.stored ++ [frame] }

/-- A frame that is short enough is copied into a packet for the cache. -/
def enqueue (e : E1000) (desc : RxDescriptor) : E1000 :=
  if desc.length.toNat ≤ Socket.maxEthernetFrameSize then
    let packet : Socket.Packet := ⟨e.buffers desc.addr, desc.length.toNat⟩
    { e with cache := e.cache.write packet, written := e.written ++ [packet] }
  else e

/-- The next step of a run of `handler`. -/
def handler (e : E1000) : E1000 :=
  match e.point with
  | .idle => e
  | .readIcr =>
    { e with icrRxt0 := false, point := if e.icrRxt0 then .readTail else .idle }
  | .readTail => { e with rxTail := e.rdt, point := .compareHead }
  | .compareHead =>
    if e.rxTail = e.rdh then { e with point := .idle }
    else { e with rxTail := (e.rxTail + 1) % numRxDescs, point := .readDescriptor }
  | .readDescriptor =>
    let desc := e.rxDescriptors e.rxTail
    if desc.status &&& rdescStatusDd = 0#8 then { e with point := .idle }
    -- the status is reset in the copy, not in the ring
    else { e with point := .copyBuffer { desc with status := 0#8 } }
  | .copyBuffer desc => { e.enqueue desc with point := .writeTail }
  | .writeTail => { e with rdt := e.rxTail, point := .readTail }

/-- Interrupts are disabled while the handler runs. -/
def step (e : E1000) : E1000Event → E1000
  | .arrival frame => e.receive frame
  | .interrupt =>
    match e.point with
    | .idle => { e with point := .readIcr }
    | _ => e
  | .handler => e.handler

end E1000

end UmbraOS
