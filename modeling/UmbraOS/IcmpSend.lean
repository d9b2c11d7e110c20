import UmbraOS.Checksum
import UmbraOS.IcmpSocket
import UmbraOS.UdpRoundTrip

namespace UmbraOS

namespace Socket

open OnesComplement Traced

def icmpHeader (type code : Byte) (checksum : BitVec 16) : List Byte :=
  [type, code] ++ bytes16 checksum

/-- `IcmpSocket::send_msg`: the result and the frame. The port that it sets is never read. -/
def IcmpSocket.sendMsg (driver : Option MacAddress) (hdr : MsgHeader) (data : List Byte) :
    Except Errno Int × Option (List Byte) :=
  match hdr.name with
  | none => (.error .nosys, none)
  | some addr =>
    if hdr.nameLen = 0 then (.error .nosys, none)
    else if addr.family ≠ .inet then (.error .nosys, none)
    else
      let message := icmpHeader 8#8 0#8 0#16 ++ data
      let checksum := (getChecksum (bufferAt message) 0 (icmpHeaderSize + data.length)).value
      let (res, frame) := sendIpv4 driver (icmpHeader 8#8 0#8 checksum ++ data) Ipv4Protocol.icmp
        (ipv4Address 0 0 0 0) addr.addr
      if res < 0 then (.ok res, frame) else (.ok (asInt data.length), frame)

/-- `checksum` of `ping.c`, whose loop adds up the same words. -/
def pingChecksum (b : Memory) (len : Nat) : BitVec 16 :=
  let sum := (sumWords b len 0 0#32).value
  let sum := if len % 2 = 1 then sum + (b (len - 1)).zeroExtend 32 else sum
  let sum := (sum >>> 16) + (sum &&& 0xffff#32)
  let sum := sum + (sum >>> 16)
  (~~~sum).truncate 16

/-- The words of a message in network order; a last odd byte is padded with zero. -/
def internetWords : List Byte → List Nat
  | a :: b :: bytes => (a.toNat * 256 + b.toNat) :: internetWords bytes
  | [a] => [a.toNat * 256]
  | [] => []

/-- The Internet checksum. -/
def internetChecksum (bytes : List Byte) : Nat := 65535 - OnesComplement.sum 65535 (internetWords bytes)

/-- A message with its `checksum` field cleared. -/
def clearIcmpChecksum (message : List Byte) : List Byte :=
  message.take 2 ++ [0#8, 0#8] ++ message.drop 4

/-- The ICMP message of a frame. -/
def icmpMessage (frame : List Byte) : List Byte := frame.drop (ethernetFrameSize + ipv4HeaderSize)

/-- The total of the words of which both bytes are there, as the processor loads them. -/
def pairTotal : List Byte → Nat
  | a :: b :: bytes => a.toNat + b.toNat * 256 + pairTotal bytes
  | [_] => 0
  | [] => 0

/-- The last byte where the length is odd. -/
def oddByte : List Byte → Nat
  | _ :: _ :: bytes => oddByte bytes
  | [a] => a.toNat
  | [] => 0

theorem internetWords_carried (bytes : List Byte) :
    Carried 65535 (256 * (pairTotal bytes + oddByte bytes))
      (OnesComplement.sum 65535 (internetWords bytes)) := by
  have hwords : ∀ x ∈ internetWords bytes, x ≤ 65535 := by
    induction bytes using internetWords.induct with
    | case1 a b bytes ih =>
      have ha := a.isLt
      have hb := b.isLt
      intro x hx
      rcases List.mem_cons.mp hx with rfl | hx
      · omega
      · exact ih x hx
    | case2 a =>
      have ha := a.isLt
      intro x hx
      rw [List.mem_singleton.mp hx]
      omega
    | case3 => exact fun x hx => absurd hx List.not_mem_nil
  have htotal : (internetWords bytes).sum % 65535 =
      256 * (pairTotal bytes + oddByte bytes) % 65535 ∧
      ((internetWords bytes).sum = 0 ↔ 256 * (pairTotal bytes + oddByte bytes) = 0) := by
    induction bytes using internetWords.induct with
    | case1 a b bytes ih =>
      obtain ⟨hmod, hzero⟩ := ih fun x hx => hwords x (List.mem_cons_of_mem _ hx)
      rw [internetWords, List.sum_cons, pairTotal, oddByte]
      omega
    | case2 a =>
      rw [internetWords, List.sum_singleton, pairTotal, oddByte]
      omega
    | case3 => exact ⟨rfl, Iff.rfl⟩
  exact (sum_carried hwords).congr htotal.1 htotal.2

theorem bufferAt_cons (a b : Byte) (bytes : List Byte) (i : Nat) :
    bufferAt (a :: b :: bytes) (i + 2) = bufferAt bytes i := by
  simp only [bufferAt, List.getD_cons_succ]

theorem wordsAt_bufferAt (bytes : List Byte) :
    (wordsAt (bufferAt bytes) 0 (bytes.length / 2)).sum = pairTotal bytes := by
  induction bytes using pairTotal.induct with
  | case1 a b bytes ih =>
    have hcount : (a :: b :: bytes).length / 2 = bytes.length / 2 + 1 := by
      rw [List.length_cons, List.length_cons]
      omega
    have hrest : ∀ k, (word (bufferAt (a :: b :: bytes)) (0 + 2 * (k + 1))).value =
        (word (bufferAt bytes) (0 + 2 * k)).value := by
      intro k
      simp only [word, value_bind, byte_value, value_pure]
      rw [show 0 + 2 * (k + 1) = 0 + 2 * k + 2 by omega, bufferAt_cons,
        show 0 + 2 * k + 2 + 1 = 0 + 2 * k + 1 + 2 by omega, bufferAt_cons]
    rw [hcount, wordsAt, List.range_succ_eq_map, List.map_cons, List.map_map, List.sum_cons,
      pairTotal, ← ih, wordsAt, word_toNat]
    simp only [Function.comp_def, hrest]
    rfl
  | case2 a =>
    rw [List.length_singleton]
    rfl
  | case3 => rfl

theorem oddByte_eq (bytes : List Byte) :
    oddByte bytes = if bytes.length % 2 = 1 then (bufferAt bytes (bytes.length - 1)).toNat else 0 := by
  induction bytes using oddByte.induct with
  | case1 a b bytes ih =>
    rw [oddByte, ih, List.length_cons, List.length_cons]
    by_cases hodd : bytes.length % 2 = 1
    · have hlast : bytes.length + 1 + 1 - 1 = bytes.length - 1 + 2 := by omega
      rw [if_pos hodd, if_pos (by omega), hlast, bufferAt_cons]
    · rw [if_neg hodd, if_neg (by omega)]
  | case2 a => rfl
  | case3 => rfl

theorem oddByte_lt (bytes : List Byte) : oddByte bytes < 256 := by
  rw [oddByte_eq]
  split
  next => exact (bufferAt bytes (bytes.length - 1)).isLt
  next => decide

/-- The loop of `get_checksum` leaves an odd byte out. -/
theorem sumWords_odd (data : Memory) (size ptr : Nat) (checksum : BitVec 32) :
    (sumWords data size ptr checksum).value = (sumWords data (2 * (size / 2)) ptr checksum).value := by
  have hsize : size = 2 * (size / 2) + size % 2 := (Nat.div_add_mod size 2).symm
  rcases Nat.mod_two_eq_zero_or_one size with heven | hodd
  · rw [show 2 * (size / 2) = size by omega]
  · conv_lhs => rw [hsize, hodd, sumWords_add]
    rw [sumWords, value_pure]
    omega

theorem sumWords_bufferAt {bytes : List Byte} (hlen : bytes.length ≤ 131074) :
    (sumWords (bufferAt bytes) bytes.length 0 0#32).value.toNat = pairTotal bytes := by
  rw [sumWords_odd, sumWords_toNat _ _ (by omega), wordsAt_bufferAt]

theorem getChecksum_bufferAt (bytes : List Byte) (hlen : bytes.length ≤ 131074) :
    Carried 65535 (pairTotal bytes)
      (65535 - (getChecksum (bufferAt bytes) 0 bytes.length).value.toNat) := by
  rw [← sumWords_bufferAt hlen, getChecksum, value_bind, value_pure]
  exact foldSum_carried _

theorem pairTotal_le (bytes : List Byte) : pairTotal bytes ≤ bytes.length / 2 * 65535 := by
  rw [← wordsAt_bufferAt]
  exact wordsAt_sum_le _ _ _

/-- The checksum that `ping.c` computes. -/
theorem pingChecksum_carried (bytes : List Byte) (hlen : bytes.length ≤ 131074) :
    Carried 65535 (pairTotal bytes + oddByte bytes)
      (65535 - (pingChecksum (bufferAt bytes) bytes.length).toNat) := by
  have hpairs := pairTotal_le bytes
  have hodd := oddByte_eq bytes
  have hbyte := (bufferAt bytes (bytes.length - 1)).isLt
  obtain ⟨sum, hsum, htotal⟩ : ∃ sum : BitVec 32, sum.toNat = pairTotal bytes + oddByte bytes ∧
      (if bytes.length % 2 = 1 then (sumWords (bufferAt bytes) bytes.length 0 0#32).value +
        (bufferAt bytes (bytes.length - 1)).zeroExtend 32
      else (sumWords (bufferAt bytes) bytes.length 0 0#32).value) = sum := by
    refine ⟨_, ?_, rfl⟩
    split
    next hlast =>
      rw [if_pos hlast] at hodd
      rw [BitVec.toNat_add, sumWords_bufferAt hlen, BitVec.toNat_setWidth_of_le (by decide), ← hodd]
      exact Nat.mod_eq_of_lt (by omega)
    next heven =>
      rw [if_neg heven] at hodd
      rw [sumWords_bufferAt hlen, hodd, Nat.add_zero]
  have hfolded : (sum >>> 16) + (sum &&& 0xffff#32) = (sum &&& 0xffff#32) + (sum >>> 16) :=
    BitVec.add_comm _ _
  have hvalue : 65535 - (pingChecksum (bufferAt bytes) bytes.length).toNat =
      OnesComplement.add 65535 (sum.toNat % 65536) (sum.toNat / 65536) := by
    have hlt := sum.isLt
    unfold pingChecksum OnesComplement.add
    simp only [htotal, hfolded]
    rw [BitVec.toNat_setWidth, BitVec.toNat_not, BitVec.toNat_add, BitVec.toNat_ushiftRight,
      halves_toNat, Nat.shiftRight_eq_div_pow]
    generalize hlow : sum.toNat % 65536 = low
    generalize hhigh : sum.toNat / 65536 = high
    have hcarry : (low + high) / 2 ^ 16 = if low + high > 65535 then 1 else 0 := by
      split <;> omega
    rw [hcarry]
    split <;> omega
  rw [← hsum, hvalue]
  exact halves_carried sum.isLt

theorem oddByte_zero (bytes : List Byte) :
    oddByte bytes = 0 ↔ bytes.length % 2 = 0 ∨ bytes.getLast? = some 0#8 := by
  rw [oddByte_eq]
  split
  next hodd =>
    have hlast : bytes.length - 1 < bytes.length := by omega
    have heven : ¬bytes.length % 2 = 0 := by omega
    rw [List.getLast?_eq_getElem?, List.getElem?_eq_getElem hlast, bufferAt,
      List.getD_eq_getElem?_getD, List.getElem?_eq_getElem hlast, Option.getD_some, or_iff_right heven,
      Option.some.injEq, ← BitVec.toNat_inj]
    rfl
  next heven => exact iff_of_true rfl (Or.inl (by omega))

/-- The frame of an echo request. -/
def icmpFrame (mac : MacAddress) (dst : BitVec 32) (payload : List Byte) : List Byte :=
  let header := ipv4Header (4 + payload.length) Ipv4Protocol.icmp
  let src := ipv4Address 0 0 0 0
  let checksum :=
    (getChecksum (bufferAt (icmpHeader 8#8 0#8 0#16 ++ payload)) 0 (4 + payload.length)).value
  broadcast.bytes ++ mac.bytes ++ bytes16 (bswap16 EtherType.ipv4) ++
    header (getChecksum (bufferAt (header 0#16 src dst)) 0 ipv4HeaderSize).value src dst ++
    (icmpHeader 8#8 0#8 checksum ++ payload)

theorem icmp_sendMsg_sent (mac : MacAddress) {hdr : MsgHeader} {addr : SockAddr}
    (payload : List Byte) (hname : hdr.name = some addr) (hlen : hdr.nameLen ≠ 0)
    (hinet : addr.family = .inet) :
    IcmpSocket.sendMsg (some mac) hdr payload =
      (.ok (asInt payload.length), some (icmpFrame mac addr.addr payload)) := by
  have hcount : ∀ checksum, (icmpHeader 8#8 0#8 checksum ++ payload).length = 4 + payload.length :=
    fun checksum => by rw [List.length_append]; rfl
  unfold IcmpSocket.sendMsg
  simp only [hname, sendIpv4, hcount, if_neg hlen, hinet, ne_eq, not_true_eq_false, if_false,
    Int.lt_irrefl]
  rfl

/-- How a call of `send_msg` ends. -/
inductive IcmpSent (hdr : MsgHeader) (payload : List Byte) :
    Option MacAddress → Except Errno Int × Option (List Byte) → Prop
  | refused {driver : Option MacAddress} : IcmpSent hdr payload driver (.error .nosys, none)
  | noDriver : IcmpSent hdr payload none (.ok (-1), none)
  | sent {mac : MacAddress} {addr : SockAddr} (hname : hdr.name = some addr) :
    IcmpSent hdr payload (some mac)
      (.ok (asInt payload.length), some (icmpFrame mac addr.addr payload))

theorem icmp_sendMsg_cases (driver : Option MacAddress) (hdr : MsgHeader) (payload : List Byte) :
    IcmpSent hdr payload driver (IcmpSocket.sendMsg driver hdr payload) := by
  cases hname : hdr.name with
  | none =>
    unfold IcmpSocket.sendMsg
    simp only [hname]
    exact .refused
  | some addr =>
    by_cases hlen : hdr.nameLen = 0
    · unfold IcmpSocket.sendMsg
      simp only [hname, if_pos hlen]
      exact .refused
    · by_cases hinet : addr.family = .inet
      · cases driver with
        | none =>
          unfold IcmpSocket.sendMsg
          simp only [hname, if_neg hlen, hinet]
          exact .noDriver
        | some mac =>
          rw [icmp_sendMsg_sent mac payload hname hlen hinet]
          exact .sent hname
      · unfold IcmpSocket.sendMsg
        simp only [hname, if_neg hlen, ne_eq, hinet, not_false_eq_true, if_true]
        exact .refused

theorem icmp_sendMsg_frame {driver : Option MacAddress} {hdr : MsgHeader}
    {payload frame : List Byte} (h : (IcmpSocket.sendMsg driver hdr payload).2 = some frame) :
    ∃ mac addr, driver = some mac ∧ hdr.name = some addr ∧
      frame = icmpFrame mac addr.addr payload := by
  have hsent := icmp_sendMsg_cases driver hdr payload
  generalize IcmpSocket.sendMsg driver hdr payload = result at h hsent
  cases hsent with
  | refused => cases h
  | noDriver => cases h
  | sent hname => exact ⟨_, _, rfl, hname, (Option.some.inj h).symm⟩

/-- The checksum of an echo request is that of its whole message, which a receiver then accepts, and
the one that `ping.c` computes, exactly when no odd byte is left out or that byte is zero. -/
theorem icmp_checksum_iff {driver : Option MacAddress} {hdr : MsgHeader} {payload frame : List Byte}
    (hsend : (IcmpSocket.sendMsg driver hdr payload).2 = some frame)
    (hlen : payload.length ≤ 131070) :
    let message := icmpMessage frame
    let cleared := clearIcmpChecksum message
    let whole := payload.length % 2 = 0 ∨ payload.getLast? = some 0#8
    ((netWord (bufferAt message) 2).value.toNat = internetChecksum cleared ↔ whole) ∧
      (OnesComplement.sum 65535 (internetWords message) = 0xffff ↔ whole) ∧
      ((word (bufferAt message) 2).value = pingChecksum (bufferAt cleared) cleared.length ↔ whole) := by
  obtain ⟨mac, addr, -, -, rfl⟩ := icmp_sendMsg_frame hsend
  obtain ⟨bytes, hbytes⟩ : ∃ bytes, bytes = icmpHeader 8#8 0#8 0#16 ++ payload := ⟨_, rfl⟩
  obtain ⟨checksum, hchecksum⟩ : ∃ checksum, checksum =
      (getChecksum (bufferAt bytes) 0 bytes.length).value := ⟨_, rfl⟩
  have hcount : bytes.length = 4 + payload.length := by
    rw [hbytes, List.length_append]
    rfl
  have hmessage : icmpMessage (icmpFrame mac addr.addr payload) =
      icmpHeader 8#8 0#8 checksum ++ payload := by
    rw [hchecksum, hcount, hbytes]
    rfl
  have hcleared : clearIcmpChecksum (icmpHeader 8#8 0#8 checksum ++ payload) = bytes := by
    rw [hbytes]
    rfl
  have hfield : (word (bufferAt (icmpHeader 8#8 0#8 checksum ++ payload)) 2).value = checksum :=
    word_bytes16 rfl rfl
  have hodd : oddByte bytes = oddByte payload := by
    rw [hbytes]
    rfl
  have hpairs : pairTotal bytes = 8 + pairTotal payload := by
    rw [hbytes]
    show 8 + 0 * 256 + (0 + 0 * 256 + pairTotal payload) = _
    omega
  have hbyte := oddByte_lt payload
  have hlt := checksum.isLt
  have hcarried := getChecksum_bufferAt bytes (by omega)
  rw [← hchecksum] at hcarried
  simp only [hmessage, hcleared]
  rw [← oddByte_zero]
  refine ⟨?_, ?_, ?_⟩
  · have hnet := hcarried.mul 256 (bswap16_complement checksum)
    have hwhole := internetWords_carried bytes
    rw [hodd, Nat.mul_add] at hwhole
    have hiff := hnet.eq_add_iff hwhole (by omega)
    have hle := hwhole.le
    have hswap := (bswap16 checksum).isLt
    rw [netWord, value_bind, value_pure, hfield, internetChecksum]
    omega
  · have hstored : pairTotal (icmpHeader 8#8 0#8 checksum ++ payload) =
        pairTotal bytes + checksum.toNat := by
      show 8 + 0 * 256 + ((BitVec.ofNat 8 checksum.toNat).toNat +
        (BitVec.ofNat 8 (checksum.toNat / 256)).toNat * 256 + pairTotal payload) = _
      rw [hpairs, BitVec.toNat_ofNat, BitVec.toNat_ofNat]
      omega
    have hlast : oddByte (icmpHeader 8#8 0#8 checksum ++ payload) = oddByte payload := rfl
    have hzero := hcarried.complement.mod
    have hwhole := internetWords_carried (icmpHeader 8#8 0#8 checksum ++ payload)
    have hiff := hwhole.eq_iff (Carried.self (Nat.le_refl 65535))
    rw [hstored, hlast] at hiff
    rw [Nat.sub_sub_self (by omega)] at hzero
    rw [hiff]
    omega
  · have hping := pingChecksum_carried bytes (by omega)
    rw [hodd] at hping
    have hiff := hcarried.eq_add_iff hping (by omega)
    have hpinglt := (pingChecksum (bufferAt bytes) bytes.length).isLt
    rw [hfield, ← BitVec.toNat_inj]
    omega

theorem icmp_checksum_two :
    (IcmpSocket.sendMsg (some echoMac) echoHeader [1#8, 2#8]).2 =
        some (icmpFrame echoMac 0#32 [1#8, 2#8]) ∧
      OnesComplement.sum 65535 (internetWords (icmpMessage (icmpFrame echoMac 0#32 [1#8, 2#8]))) =
        0xffff :=
  have hsent := congrArg Prod.snd (icmp_sendMsg_sent echoMac [1#8, 2#8]
    (rfl : echoHeader.name = some _) (by decide) rfl)
  ⟨hsent, (icmp_checksum_iff hsent (by decide)).2.1.mpr (Or.inl rfl)⟩

/-- A single byte of payload is not covered. -/
theorem icmp_checksum_one :
    ¬∀ (driver : Option MacAddress) (hdr : MsgHeader) (payload frame : List Byte),
      (IcmpSocket.sendMsg driver hdr payload).2 = some frame → frame.length ≤ maxEthernetFrameSize →
      (netWord (bufferAt (icmpMessage frame)) 2).value.toNat =
        internetChecksum (clearIcmpChecksum (icmpMessage frame)) := by
  intro h
  have hsent := congrArg Prod.snd (icmp_sendMsg_sent echoMac [1#8]
    (rfl : echoHeader.name = some _) (by decide) rfl)
  have hone := h (some echoMac) echoHeader [1#8] _ hsent (by decide)
  exact absurd hone (by decide)

end Socket

end UmbraOS
