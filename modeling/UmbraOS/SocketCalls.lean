import UmbraOS.SendLengths

namespace UmbraOS

namespace Socket

def addInt (a b : Int) : Int := (BitVec.ofInt 32 (a + b)).toInt

/-- The loop of `sys_send_msg` over the iovecs: the result, the socket and the frames. -/
def sendLoop (socket : UdpSocket) (driver : Option MacAddress) (hdr : MsgHeader) :
    List (List Byte) → Int → Except Errno Int × UdpSocket × List (List Byte)
  | [], sent => (.ok sent, socket, [])
  | data :: iov, sent =>
    match socket.sendMsg driver hdr data with
    | (.error e, socket, frame) => (.error e, socket, frame.toList)
    | (.ok res, socket, frame) =>
      if res < 0 then (.ok res, socket, frame.toList)
      else
        let (result, socket, frames) := sendLoop socket driver hdr iov (addInt sent res)
        (result, socket, frame.toList ++ frames)

def sysSendMsg (socket : UdpSocket) (driver : Option MacAddress) (hdr : MsgHeader)
    (iov : List (List Byte)) : Except Errno Int × UdpSocket × List (List Byte) :=
  sendLoop socket driver hdr iov 0

inductive RecvCall
  | error (e : Errno)
  /-- The task waits for a packet. -/
  | wait
  | returned (count : Int)
deriving DecidableEq

/-- The loop of `sys_recv_msg` over the iovecs: the result, the socket and what was written for each
packet that was read, the sender to `msg_name`. -/
def recvLoop (socket : UdpSocket) (dontWait nonBlock : Bool) :
    List Nat → Nat → RecvCall × UdpSocket × List (List Byte × SockAddr)
  | [], read => (.returned (asInt read), socket, [])
  | len :: iov, read =>
    match socket.recvMsg dontWait nonBlock len with
    | (.error e, socket) => (.error e, socket, [])
    | (.wait, socket) => (.wait, socket, [])
    | (.message length data src, socket) =>
      if asInt length < 0 then (.returned (asInt length), socket, [(data, src)])
      else
        let (result, socket, messages) := recvLoop socket dontWait nonBlock iov (u64 (read + length))
        (result, socket, (data, src) :: messages)

def sysRecvMsg (socket : UdpSocket) (dontWait nonBlock : Bool) (iov : List Nat) :
    RecvCall × UdpSocket × List (List Byte × SockAddr) :=
  recvLoop socket dontWait nonBlock iov 0

/-- The queue of a socket: `receive_udp` writes packets with the length of a 16-bit field. -/
structure Received (packets : Ringbuffer UdpPacket 64) : Prop where
  ok : packets.Ok
  lengths : ∀ packet ∈ packets.contents, packet.length < 65536

theorem asInt_of_lt {n : Nat} (h : n < 2 ^ 31) : asInt n = n := by
  rw [asInt, BitVec.toInt_eq_toNat_cond, BitVec.toNat_ofNat, Nat.mod_eq_of_lt (by omega)]
  split <;> omega

section Receive

variable {socket : UdpSocket} (dontWait nonBlock : Bool)

theorem recvMsg_empty (hok : socket.packets.Ok) (hempty : socket.packets.contents = []) (len : Nat) :
    socket.recvMsg dontWait nonBlock len =
      (if dontWait then .error .again else if nonBlock then .error .wouldBlock else .wait, socket) := by
  have hread : socket.packets.read = (none, socket.packets) :=
    if_pos ((Ringbuffer.isEmpty_iff hok).mpr hempty)
  unfold UdpSocket.recvMsg
  simp only [hread]
  cases dontWait <;> cases nonBlock <;> rfl

theorem recvMsg_first (hr : Received socket.packets) {packet : UdpPacket} {rest : List UdpPacket}
    (hpackets : socket.packets.contents = packet :: rest) (len : Nat) :
    ∃ data src socket', socket.recvMsg dontWait nonBlock len =
        (.message (min len packet.length) data src, socket') ∧
      ¬asInt (min len packet.length) < 0 ∧ Received socket'.packets ∧
      socket'.packets.contents = rest := by
  obtain ⟨hfirst, hrest⟩ := Ringbuffer.read_contents hr.ok hpackets
  have hreadOk := Ringbuffer.read_ok hr.ok
  obtain ⟨packets, hread⟩ : ∃ packets, socket.packets.read = (some packet, packets) :=
    ⟨socket.packets.read.2, Prod.ext hfirst rfl⟩
  rw [hread] at hrest hreadOk
  have hlength := hr.lengths packet (by rw [hpackets]; exact List.mem_cons_self)
  have hlengths : ∀ p ∈ rest, p.length < 65536 := fun p hp =>
    hr.lengths p (by rw [hpackets]; exact List.mem_cons_of_mem packet hp)
  refine ⟨packet.data.take (min len packet.length), ⟨.inet, packet.srcPort, packet.srcIp⟩,
    { socket with packets := packets }, ?_, ?_, ⟨hreadOk, ?_⟩, hrest⟩
  · unfold UdpSocket.recvMsg
    simp only [hread]
  · rw [asInt_of_lt (by omega)]
    omega
  · rw [hrest]
    exact hlengths

/-- The packets are read one for each iovec. -/
theorem recvLoop_covered (hr : Received socket.packets) {iov : List Nat} (read : Nat)
    (hcovered : iov.length ≤ socket.packets.contents.length) :
    ∃ count, (recvLoop socket dontWait nonBlock iov read).1 = .returned count := by
  induction iov generalizing socket read with
  | nil => exact ⟨asInt read, rfl⟩
  | cons len iov ih =>
    cases hpackets : socket.packets.contents with
    | nil =>
      rw [hpackets] at hcovered
      cases hcovered
    | cons packet rest =>
      obtain ⟨data, src, socket', hrecv, hpos, hr', hrest⟩ := recvMsg_first dontWait nonBlock hr hpackets len
      rw [hpackets] at hcovered
      obtain ⟨count, hcount⟩ := ih hr' (u64 (read + min len packet.length))
        (by rw [hrest]; exact Nat.le_of_succ_le_succ hcovered)
      unfold recvLoop
      simp only [hrecv, if_neg hpos]
      exact ⟨count, hcount⟩

/-- With more iovecs than packets the queue runs empty before the call waits or fails. -/
theorem recvLoop_uncovered (hr : Received socket.packets) {iov : List Nat} (read : Nat)
    (huncovered : socket.packets.contents.length < iov.length) :
    (recvLoop socket dontWait nonBlock iov read).2.1.packets.contents = [] ∧
      (recvLoop socket dontWait nonBlock iov read).1 =
        if dontWait then .error .again else if nonBlock then .error .wouldBlock else .wait := by
  induction iov generalizing socket read with
  | nil => cases huncovered
  | cons len iov ih =>
    cases hpackets : socket.packets.contents with
    | nil =>
      have hrecv := recvMsg_empty dontWait nonBlock hr.ok hpackets len
      unfold recvLoop
      simp only [hrecv]
      cases dontWait <;> cases nonBlock <;> exact ⟨hpackets, rfl⟩
    | cons packet rest =>
      obtain ⟨data, src, socket', hrecv, hpos, hr', hrest⟩ := recvMsg_first dontWait nonBlock hr hpackets len
      rw [hpackets] at huncovered
      have hnext := ih hr' (u64 (read + min len packet.length))
        (by rw [hrest]; exact Nat.lt_of_succ_lt_succ huncovered)
      unfold recvLoop
      simp only [hrecv, if_neg hpos]
      exact hnext

/-- A call that fails has consumed no packet, exactly when it cannot fail (it is allowed to wait, or
there is a packet for each iovec) or finds the queue empty from the start. -/
theorem sysRecvMsg_keeps_iff (hr : Received socket.packets) (iov : List Nat) :
    (∀ e, (sysRecvMsg socket dontWait nonBlock iov).1 = .error e →
      (sysRecvMsg socket dontWait nonBlock iov).2.1.packets = socket.packets) ↔
    (dontWait = false ∧ nonBlock = false) ∨ iov.length ≤ socket.packets.contents.length ∨
      socket.packets.contents = [] := by
  unfold sysRecvMsg
  by_cases hcovered : iov.length ≤ socket.packets.contents.length
  · obtain ⟨count, hcount⟩ := recvLoop_covered dontWait nonBlock hr 0 hcovered
    rw [hcount]
    exact iff_of_true (fun e he => by cases he) (Or.inr (Or.inl hcovered))
  · have huncovered := Nat.lt_of_not_le hcovered
    obtain ⟨hempty, hresult⟩ := recvLoop_uncovered dontWait nonBlock hr 0 huncovered
    rw [hresult]
    constructor
    · intro hkeeps
      by_cases hflag : dontWait = false ∧ nonBlock = false
      · exact Or.inl hflag
      · have herror : ∃ e, (if dontWait then RecvCall.error .again
            else if nonBlock then .error .wouldBlock else .wait) = .error e := by
          cases dontWait <;> cases nonBlock <;> simp_all
        obtain ⟨e, he⟩ := herror
        have hsame := hkeeps e he
        rw [hsame] at hempty
        exact Or.inr (Or.inr hempty)
    · rintro (⟨rfl, rfl⟩ | hle | hnone) e he
      · cases he
      · exact absurd hle hcovered
      · cases iov with
        | nil => cases huncovered
        | cons len iov =>
          have hrecv := recvMsg_empty dontWait nonBlock hr.ok hnone len
          unfold recvLoop
          rw [hrecv]
          cases dontWait <;> cases nonBlock <;> rfl

def queuedServer : UdpSocket := echoServer.write ⟨0#32, 0#16, 1, [0x2a#8]⟩

theorem queuedServer_received : Received queuedServer.packets := by
  refine ⟨⟨by decide, by decide⟩, fun packet hp => ?_⟩
  obtain rfl := List.mem_singleton.mp hp
  exact by decide

theorem sysRecvMsg_keeps_one :
    Received queuedServer.packets ∧
      ((∀ e, (sysRecvMsg queuedServer true false [1]).1 = .error e →
        (sysRecvMsg queuedServer true false [1]).2.1.packets = queuedServer.packets) ↔
      (true = false ∧ false = false) ∨ [1].length ≤ queuedServer.packets.contents.length ∨
        queuedServer.packets.contents = []) :=
  ⟨queuedServer_received, sysRecvMsg_keeps_iff true false queuedServer_received [1]⟩

/-- The packet is read for the first iovec, and the second one fails. -/
theorem sysRecvMsg_loses :
    ¬∀ (socket : UdpSocket) (dontWait nonBlock : Bool) (iov : List Nat), Received socket.packets →
      ∀ e, (sysRecvMsg socket dontWait nonBlock iov).1 = .error e →
        (sysRecvMsg socket dontWait nonBlock iov).2.1.packets = socket.packets := by
  intro h
  have hsame := h queuedServer true false [1, 1] queuedServer_received .again rfl
  have htail := congrArg Ringbuffer.tail hsame
  exact absurd htail (by decide)

end Receive

section Send

variable {socket : UdpSocket} {driver : Option MacAddress} {hdr : MsgHeader}

theorem addInt_of_lt {a b : Nat} (h : a + b < 2 ^ 31) : addInt a b = (a + b : Nat) := by
  have hsum : addInt a b = asInt (a + b) := by
    rw [addInt, asInt, ← Int.natCast_add, BitVec.ofInt_natCast]
  rw [hsum, asInt_of_lt h]

/-- Each iovec is sent as a datagram of its own. -/
theorem sendLoop_sent {mac : MacAddress} {addr : SockAddr}
    (hresult : ∀ (socket : UdpSocket) (payload : List Byte), socket.sendMsg driver hdr payload =
      (.ok (asInt payload.length), { socket with port := 1337#16 },
        some (udpFrame mac addr.port payload))) (socket : UdpSocket) (iov : List (List Byte)) (sent : Nat)
    (hlen : sent + iov.flatten.length < 2 ^ 31) :
    (sendLoop socket driver hdr iov sent).1 = .ok ((sent + iov.flatten.length : Nat) : Int) ∧
      (sendLoop socket driver hdr iov sent).2.2 = iov.map (udpFrame mac addr.port) := by
  induction iov generalizing socket sent with
  | nil => exact ⟨rfl, rfl⟩
  | cons data iov ih =>
    rw [List.flatten_cons, List.length_append] at hlen ⊢
    have hint : asInt data.length = data.length := asInt_of_lt (by omega)
    have hpos : ¬((data.length : Nat) : Int) < 0 := by omega
    obtain ⟨hcount, hframes⟩ := ih { socket with port := 1337#16 } (sent + data.length) (by omega)
    unfold sendLoop
    simp only [hresult, hint, if_neg hpos, addInt_of_lt (by omega : sent + data.length < 2 ^ 31)]
    rw [hcount, hframes, Nat.add_assoc]
    exact ⟨rfl, rfl⟩

/-- Where no call sends anything, the first one ends the loop. -/
theorem sendLoop_silent {result : Except Errno Int} (hstop : ∀ n, result = .ok n → n < 0)
    (hresult : ∀ (socket : UdpSocket) (payload : List Byte), ∃ socket',
      socket.sendMsg driver hdr payload = (result, socket', none))
    (socket : UdpSocket) (iov : List (List Byte)) (sent : Int) :
    (sendLoop socket driver hdr iov sent).2.2 = [] ∧
      (iov ≠ [] → (sendLoop socket driver hdr iov sent).1 = result) := by
  cases iov with
  | nil => exact ⟨rfl, fun hne => absurd rfl hne⟩
  | cons data iov =>
    obtain ⟨socket', hsend⟩ := hresult socket data
    unfold sendLoop
    cases result with
    | error e =>
      rw [hsend]
      exact ⟨rfl, fun _ => rfl⟩
    | ok n =>
      rw [hsend]
      simp only [if_pos (hstop n rfl)]
      exact ⟨rfl, fun _ => trivial⟩

theorem silent_datagrams {result : Except Errno Int} (hstop : ∀ n, result = .ok n → n < 0)
    (hresult : ∀ (socket : UdpSocket) (payload : List Byte), ∃ socket',
      socket.sendMsg driver hdr payload = (result, socket', none))
    (socket : UdpSocket) (iov : List (List Byte)) :
    (sendLoop socket driver hdr iov 0).2.2 =
        iov.filterMap (fun data => (socket.sendMsg driver hdr data).2.2) ∧
      (iov ≠ [] → (sendLoop socket driver hdr iov 0).1 =
        (sendLoop socket driver hdr [iov.flatten] 0).1) ∧
      ((sendLoop socket driver hdr iov 0).2.2 = (sendLoop socket driver hdr [iov.flatten] 0).2.2 ↔
        iov.length = 1 ∨ (sendLoop socket driver hdr [iov.flatten] 0).2.2 = []) := by
  obtain ⟨hframes, hcount⟩ := sendLoop_silent hstop hresult socket iov 0
  obtain ⟨hframes', hcount'⟩ := sendLoop_silent hstop hresult socket [iov.flatten] 0
  have hnone : iov.filterMap (fun data => (socket.sendMsg driver hdr data).2.2) = [] := by
    rw [List.filterMap_eq_nil_iff]
    intro data _
    obtain ⟨socket', hsend⟩ := hresult socket data
    rw [hsend]
  rw [hframes, hframes', hnone, hcount' (List.cons_ne_nil _ _)]
  exact ⟨rfl, hcount, iff_of_true rfl (Or.inr rfl)⟩

/-- `sys_send_msg` sends in order what a call for each iovec alone sends. The count is that of a call
with the payload in one piece; the frames are the same only for one iovec, or when nothing is
sent. -/
theorem sysSendMsg_datagrams (socket : UdpSocket) (driver : Option MacAddress) (hdr : MsgHeader)
    (iov : List (List Byte)) (hlen : iov.flatten.length < 2 ^ 31) :
    (sysSendMsg socket driver hdr iov).2.2 =
        iov.filterMap (fun data => (socket.sendMsg driver hdr data).2.2) ∧
      (iov ≠ [] → (sysSendMsg socket driver hdr iov).1 =
        (sysSendMsg socket driver hdr [iov.flatten]).1) ∧
      ((sysSendMsg socket driver hdr iov).2.2 = (sysSendMsg socket driver hdr [iov.flatten]).2.2 ↔
        iov.length = 1 ∨ (sysSendMsg socket driver hdr [iov.flatten]).2.2 = []) := by
  unfold sysSendMsg
  cases udp_sendMsg_cases driver hdr with
  | refused hresult =>
    exact silent_datagrams (fun n hn => by cases hn)
      (fun socket payload => ⟨_, hresult socket payload⟩) socket iov
  | noDriver hresult =>
    refine silent_datagrams (fun n hn => ?_)
      (fun socket payload => ⟨_, hresult socket payload⟩) socket iov
    cases hn
    decide
  | sent mac addr hresult =>
    obtain ⟨hcount, hframes⟩ := sendLoop_sent hresult socket iov 0 (by omega)
    obtain ⟨hcount', hframes'⟩ := sendLoop_sent hresult socket [iov.flatten] 0
      (by rw [List.flatten_singleton]; omega)
    have hone : iov.length = 1 → iov.map (udpFrame mac addr.port) =
        [iov.flatten].map (udpFrame mac addr.port) := by
      intro h
      obtain ⟨data, rfl⟩ := List.length_eq_one_iff.mp h
      rw [List.flatten_singleton]
    have hall : (fun data => (socket.sendMsg driver hdr data).2.2) =
        fun data => some (udpFrame mac addr.port data) := by
      funext data
      rw [hresult]
    rw [Int.ofNat_zero] at hcount hcount' hframes hframes'
    rw [hframes, hframes', hcount, hcount', List.flatten_singleton, hall, List.filterMap_eq_map']
    refine ⟨rfl, fun _ => rfl, fun h => Or.inl ?_, fun h => h.elim hone fun hnil => ?_⟩
    · have hlength := congrArg List.length h
      rwa [List.length_map, List.length_map, List.length_singleton] at hlength
    · cases hnil

theorem sysSendMsg_datagrams_two :
    ([[1#8], [2#8]].flatten : List Byte).length < 2 ^ 31 ∧
      (sysSendMsg echoServer (some echoMac) echoHeader [[1#8], [2#8]]).1 =
        (sysSendMsg echoServer (some echoMac) echoHeader [[1#8, 2#8]]).1 :=
  ⟨by decide, (sysSendMsg_datagrams echoServer (some echoMac) echoHeader [[1#8], [2#8]]
    (by decide)).2.1 (List.cons_ne_nil _ _)⟩

/-- Two iovecs of one byte are two frames. -/
theorem sysSendMsg_splits :
    ¬∀ (socket : UdpSocket) (driver : Option MacAddress) (hdr : MsgHeader) (payload : List Byte)
      (iov : List (List Byte)), iov.flatten = payload →
      (sysSendMsg socket driver hdr iov).2.2 = (sysSendMsg socket driver hdr [payload]).2.2 ∧
        (sysSendMsg socket driver hdr iov).1 = (sysSendMsg socket driver hdr [payload]).1 := by
  intro h
  have hframes := (h echoServer (some echoMac) echoHeader [1#8, 2#8] [[1#8], [2#8]] rfl).1
  have hlength := congrArg List.length hframes
  cases hlength

end Send

end Socket

end UmbraOS
