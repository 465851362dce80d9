/-
What the packets of the spoofer decode to (client/spoofer.c).

A packet is read as IPv4, and what follows the header as TCP or as UDP, where the header says that it ends and without
regard to the total length. `Asked` is what a call of send_spoofed_packet or of send_udp_packet asks for, with the data
short enough for a total length of 16 bits; `TcpAsAsked` and `UdpAsAsked` say that the packet is that. No packet is: the
source, the destination, the ttl and the data are read back from both, but the total length leaves out 20 bytes of
either packet, TCP goes out under the protocol number of UDP, and 12 bytes follow the data in UDP.

- `spoofedPacket_decodes`, `udpPacket_decodes`: what the packets decode to;
- `packets_not_as_asked`: that is never what was asked.
-/
import NetSec.Client.Checksums

namespace NetSec.Client

open NetSec.Memory NetSec.OnesComplement

/-! ## Decoding -/

structure Ipv4 where
  totalLength : BitVec 16
  ttl : Byte
  protocol : Byte
  src : BitVec 32
  dest : BitVec 32
  payload : List Byte

/-- version 4, with a header that is there; checksum, fragments and options are not read -/
def parseIpv4 : List Byte → Option Ipv4
  | version :: _ :: l1 :: l0 :: _ :: _ :: _ :: _ :: ttl :: protocol :: _ :: _ :: s3 :: s2 :: s1 :: s0 ::
      d3 :: d2 :: d1 :: d0 :: rest =>
    let headerBytes := 4 * (version.toNat % 16)
    if version.toNat / 16 = 4 ∧ 20 ≤ headerBytes ∧ headerBytes ≤ 20 + rest.length then
      some ⟨l1 ++ l0, ttl, protocol, s3 ++ s2 ++ s1 ++ s0, d3 ++ d2 ++ d1 ++ d0, rest.drop (headerBytes - 20)⟩
    else none
  | _ => none

structure Tcp where
  srcPort : BitVec 16
  destPort : BitVec 16
  seq : BitVec 32
  payload : List Byte

def parseTcp : List Byte → Option Tcp
  | p1 :: p0 :: q1 :: q0 :: n3 :: n2 :: n1 :: n0 :: _ :: _ :: _ :: _ :: offset :: _ :: _ :: _ :: _ :: _ :: _ :: _ ::
      rest =>
    let headerBytes := 4 * (offset.toNat / 16)
    if 20 ≤ headerBytes ∧ headerBytes ≤ 20 + rest.length then
      some ⟨p1 ++ p0, q1 ++ q0, n3 ++ n2 ++ n1 ++ n0, rest.drop (headerBytes - 20)⟩
    else none
  | _ => none

structure Udp where
  srcPort : BitVec 16
  destPort : BitVec 16
  length : BitVec 16
  payload : List Byte

/-- the data ends where the length says -/
def parseUdp : List Byte → Option Udp
  | p1 :: p0 :: q1 :: q0 :: l1 :: l0 :: _ :: _ :: rest =>
    let length : BitVec 16 := l1 ++ l0
    if 8 ≤ length.toNat ∧ length.toNat ≤ 8 + rest.length then
      some ⟨p1 ++ p0, q1 ++ q0, length, rest.take (length.toNat - 8)⟩
    else none
  | _ => none

/-! ## What was asked -/

structure Asked where
  src : BitVec 32
  dest : BitVec 32
  ttlHigh : Byte
  ttlLow : Byte
  data : Payload
  low_le : ttlLow ≤ ttlHigh
  short : ipHeaderBytes + tcpHeaderBytes + data.bytes.length < 2 ^ 16

/-- the fields that the two packets share, and get right -/
structure Addressed (a : Asked) (ip : Ipv4) : Prop where
  src : ip.src = a.src
  dest : ip.dest = a.dest
  low_le : a.ttlLow ≤ ip.ttl
  le_high : ip.ttl ≤ a.ttlHigh

def TcpAsAsked (a : Asked) (sent : List Byte) : Prop :=
  ∃ ip tcp, parseIpv4 sent = some ip ∧ parseTcp ip.payload = some tcp ∧ Addressed a ip ∧
    ip.totalLength.toNat = sent.length ∧ ip.protocol = tcpProtocol ∧ tcp.payload = a.data.bytes

def UdpAsAsked (a : Asked) (sent : List Byte) : Prop :=
  ∃ ip udp, parseIpv4 sent = some ip ∧ parseUdp ip.payload = some udp ∧ Addressed a ip ∧
    ip.totalLength.toNat = sent.length ∧ ip.protocol = udpProtocol ∧
      udp.length.toNat = udpHeaderBytes + a.data.bytes.length ∧ udp.length.toNat = ip.payload.length ∧
        udp.payload = a.data.bytes

/-! ## What is sent -/

theorem parseIpv4_ipBytes (src dest : BitVec 32) (ttl : Byte) (len checksum : BitVec 16) (payload : List Byte) :
    parseIpv4 (ipBytes src dest ttl len (hosts checksum) ++ payload) =
      some ⟨len + 20, ttl, udpProtocol, src, dest, payload⟩ := by
  have hheader : 4 * ((0x45 : Byte).toNat % 16) = 20 := rfl
  have hversion : (0x45 : Byte).toNat / 16 = 4 := rfl
  simp only [ipBytes, htons, htonl, hosts, List.cons_append, List.nil_append, parseIpv4, append_htons, append_htonl]
  rw [hheader, if_pos ⟨hversion, le_refl _, Nat.le_add_right _ _⟩]
  rfl

theorem parseTcp_tcpBytes (port checksum : BitVec 16) (seq : BitVec 32) (data : List Byte) :
    parseTcp (tcpBytes port seq (hosts checksum) ++ data) = some ⟨port, 53, seq, data⟩ := by
  have hheader : 4 * ((0x50 : Byte).toNat / 16) = 20 := rfl
  simp only [tcpBytes, htons, htonl, hosts, List.cons_append, List.nil_append, parseTcp, append_htons, append_htonl]
  rw [hheader, if_pos ⟨le_refl _, Nat.le_add_right _ _⟩]
  rfl

theorem parseUdp_bytes (port len : BitVec 16) (data rest : List Byte) (hlen : len.toNat = 8 + data.length) :
    parseUdp (htons port ++ htons 53 ++ htons len ++ [0, 0] ++ data ++ rest) = some ⟨port, 53, len, data⟩ := by
  simp only [htons, List.cons_append, List.nil_append, parseUdp, append_htons]
  rw [hlen, List.length_append, if_pos (by omega), Nat.add_sub_cancel_left, List.take_left' rfl]

/-- `rand() % ( ttl_high - ttl_low + 1 ) + ttl_low` lies where it should -/
theorem toNat_randomTtl {ttlHigh ttlLow : Byte} (h : ttlLow ≤ ttlHigh) (rand : ℕ) :
    (randomTtl ttlHigh ttlLow rand).toNat = rand % (ttlHigh.toNat - ttlLow.toNat + 1) + ttlLow.toNat := by
  have hle : ttlLow.toNat ≤ ttlHigh.toNat := BitVec.le_def.1 h
  have hspan : (ttlHigh.toNat : ℤ) - ttlLow.toNat + 1 = ((ttlHigh.toNat - ttlLow.toNat + 1 : ℕ) : ℤ) := by
    push_cast [Nat.cast_sub hle]
    ring
  have hmod : rand % (ttlHigh.toNat - ttlLow.toNat + 1) < ttlHigh.toNat - ttlLow.toNat + 1 :=
    Nat.mod_lt _ (Nat.succ_pos _)
  have hlt : ttlHigh.toNat < 2 ^ 8 := ttlHigh.isLt
  calc
    (randomTtl ttlHigh ttlLow rand).toNat =
        (BitVec.ofInt 8 ((rand % (ttlHigh.toNat - ttlLow.toNat + 1) + ttlLow.toNat : ℕ) : ℤ)).toNat := by
      rw [randomTtl, hspan, ← Int.ofNat_tmod, ← Nat.cast_add]
    _ = (rand % (ttlHigh.toNat - ttlLow.toNat + 1) + ttlLow.toNat) % 2 ^ 8 := by
      rw [BitVec.ofInt_natCast, BitVec.toNat_ofNat]
    _ = rand % (ttlHigh.toNat - ttlLow.toNat + 1) + ttlLow.toNat := Nat.mod_eq_of_lt (by omega)

theorem Asked.ttl_mem (a : Asked) (rand : ℕ) :
    a.ttlLow ≤ randomTtl a.ttlHigh a.ttlLow rand ∧ randomTtl a.ttlHigh a.ttlLow rand ≤ a.ttlHigh := by
  have hle : a.ttlLow.toNat ≤ a.ttlHigh.toNat := BitVec.le_def.1 a.low_le
  have hmod : rand % (a.ttlHigh.toNat - a.ttlLow.toNat + 1) < a.ttlHigh.toNat - a.ttlLow.toNat + 1 :=
    Nat.mod_lt _ (Nat.succ_pos _)
  rw [BitVec.le_def, BitVec.le_def, toNat_randomTtl a.low_le]
  omega

/-- the data is short enough for its length and that of a header -/
theorem Asked.toNat_len_add (a : Asked) (header : ℕ) (h : header ≤ 40) :
    (a.data.len + BitVec.ofNat 16 header).toNat = a.data.bytes.length + header := by
  have hshort : 20 + 20 + a.data.bytes.length < 2 ^ 16 := a.short
  rw [BitVec.toNat_add, toNat_len, BitVec.toNat_ofNat, Nat.mod_eq_of_lt (a := header) (by omega)]
  exact Nat.mod_eq_of_lt (by omega)

/-- **What the packet of send_spoofed_packet decodes to.** -/
theorem spoofedPacket_decodes (a : Asked) (r : Rands) (heap : Heap) :
    ∃ ip tcp, parseIpv4 (spoofedPacket a.src a.dest a.ttlHigh a.ttlLow a.data r heap) = some ip ∧
      parseTcp ip.payload = some tcp ∧ Addressed a ip ∧
      ip.totalLength.toNat + 20 = (spoofedPacket a.src a.dest a.ttlHigh a.ttlLow a.data r heap).length ∧
      ip.protocol = udpProtocol ∧ tcp.payload = a.data.bytes := by
  obtain ⟨checksum, hpacket⟩ := spoofedPacket_bytes a.src a.dest a.ttlHigh a.ttlLow a.data r heap
  have httl := a.ttl_mem r.ttl
  rw [hpacket, parseIpv4_ipBytes]
  refine ⟨_, _, rfl, parseTcp_tcpBytes _ _ _ _, ⟨rfl, rfl, httl.1, httl.2⟩, ?_, rfl, rfl⟩
  have hlen : (a.data.len + 20).toNat = a.data.bytes.length + 20 := a.toNat_len_add 20 (by omega)
  rw [List.length_append, length_ipBytes, tcpSegment, List.length_append, length_tcpBytes, hlen]
  omega

/-- **What the packet of send_udp_packet decodes to.** -/
theorem udpPacket_decodes (a : Asked) (r : Rands) (heap : Heap) :
    ∃ ip udp, parseIpv4 (udpPacket a.src a.dest a.ttlHigh a.ttlLow a.data r heap) = some ip ∧
      parseUdp ip.payload = some udp ∧ Addressed a ip ∧
      ip.totalLength.toNat + 20 = (udpPacket a.src a.dest a.ttlHigh a.ttlLow a.data r heap).length ∧
      ip.protocol = udpProtocol ∧ udp.length.toNat = udpHeaderBytes + a.data.bytes.length ∧
      udp.length.toNat + 12 = ip.payload.length ∧ udp.payload = a.data.bytes := by
  obtain ⟨checksum, rest, hrest, hpacket⟩ := udpPacket_bytes a.src a.dest a.ttlHigh a.ttlLow a.data r heap
  have httl := a.ttl_mem r.ttl
  have hip : (a.data.len + 20).toNat = a.data.bytes.length + 20 := a.toNat_len_add 20 (by omega)
  have hudp : (a.data.len + 8).toNat = 8 + a.data.bytes.length := by
    rw [Nat.add_comm]
    exact a.toNat_len_add 8 (by omega)
  have hpayload : (htons (udpSourcePort r.port) ++ htons 53 ++ htons (a.data.len + 8) ++ [0, 0] ++ a.data.bytes ++
      rest).length = 8 + a.data.bytes.length + 12 := by
    rw [List.length_append, List.length_append, hrest]
    rfl
  rw [hpacket, parseIpv4_ipBytes]
  refine ⟨_, _, rfl, parseUdp_bytes _ _ _ rest hudp, ⟨rfl, rfl, httl.1, httl.2⟩, ?_, rfl, hudp, ?_, rfl⟩
  · rw [List.length_append, length_ipBytes, hpayload, hip]
    omega
  · rw [hpayload, hudp]

/-! ## That is not what was asked -/

/-- a total length that leaves out 20 bytes is not the number of bytes -/
theorem totalLength_ne {sent : List Byte} {ip ip' : Ipv4} (hip : parseIpv4 sent = some ip)
    (hshort : ip.totalLength.toNat + 20 = sent.length) (hip' : parseIpv4 sent = some ip') :
    ip'.totalLength.toNat ≠ sent.length := by
  obtain rfl : ip = ip' := Option.some.inj (hip.symm.trans hip')
  omega

theorem spoofedPacket_not_as_asked (a : Asked) (r : Rands) (heap : Heap) :
    ¬ TcpAsAsked a (spoofedPacket a.src a.dest a.ttlHigh a.ttlLow a.data r heap) := by
  intro h
  obtain ⟨ip, tcp, hip, -, -, hshort, -⟩ := spoofedPacket_decodes a r heap
  obtain ⟨ip', tcp', hip', -, -, hlength, -⟩ := h
  exact totalLength_ne hip hshort hip' hlength

theorem udpPacket_not_as_asked (a : Asked) (r : Rands) (heap : Heap) :
    ¬ UdpAsAsked a (udpPacket a.src a.dest a.ttlHigh a.ttlLow a.data r heap) := by
  intro h
  obtain ⟨ip, udp, hip, -, -, hshort, -⟩ := udpPacket_decodes a r heap
  obtain ⟨ip', udp', hip', -, -, hlength, -⟩ := h
  exact totalLength_ne hip hshort hip' hlength

theorem sendSpoofedPacket_sent {net : Sockets} {a : Asked} {r : Rands} {heap : Heap} {sent : List Byte}
    (h : (sendSpoofedPacket net a.src a.dest a.ttlHigh a.ttlLow a.data r heap).1 = some sent) :
    sent = spoofedPacket a.src a.dest a.ttlHigh a.ttlLow a.data r heap := by
  unfold sendSpoofedPacket at h
  split_ifs at h <;> exact (Option.some.inj h).symm

theorem sendUdpPacket_sent {net : Sockets} {a : Asked} {r : Rands} {heap : Heap} {sent : List Byte}
    (h : (sendUdpPacket net a.src a.dest a.ttlHigh a.ttlLow a.data r heap).1 = some sent) :
    sent = udpPacket a.src a.dest a.ttlHigh a.ttlLow a.data r heap := by
  unfold sendUdpPacket at h
  split_ifs at h <;> exact (Option.some.inj h).symm

/-- **No packet decodes to what was asked.** For every call, whatever `rand` returns and memory holds: the bytes that
are handed to sendto are neither the TCP packet nor the UDP packet that was asked for. -/
theorem packets_not_as_asked (a : Asked) (net : Sockets) (r : Rands) (heap : Heap) :
    (∀ sent, (sendSpoofedPacket net a.src a.dest a.ttlHigh a.ttlLow a.data r heap).1 = some sent →
      ¬ TcpAsAsked a sent) ∧
    (∀ sent, (sendUdpPacket net a.src a.dest a.ttlHigh a.ttlLow a.data r heap).1 = some sent →
      ¬ UdpAsAsked a sent) := by
  refine ⟨?_, ?_⟩
  · intro sent hsent
    rw [sendSpoofedPacket_sent hsent]
    exact spoofedPacket_not_as_asked a r heap
  · intro sent hsent
    rw [sendUdpPacket_sent hsent]
    exact udpPacket_not_as_asked a r heap

/-- the call of trial4, without data -/
def trialAsked : Asked where
  src := trialSrc
  dest := trialDest
  ttlHigh := 64
  ttlLow := 20
  data := noData
  low_le := by decide
  short := by decide

/-- a socket, and sendto that takes all 40 bytes -/
def trialSockets : Sockets := ⟨3, 0, 40⟩

/-- **Two packets that are sent and are not what was asked.** -/
theorem trial_packets_misread :
    (∃ sent, (sendSpoofedPacket trialSockets trialSrc trialDest 64 20 noData firstRands zeroHeap).1 = some sent ∧
      ¬ TcpAsAsked trialAsked sent) ∧
    (∃ sent, (sendUdpPacket trialSockets trialSrc trialDest 64 20 noData firstRands zeroHeap).1 = some sent ∧
      ¬ UdpAsAsked trialAsked sent) :=
  ⟨⟨_, rfl, spoofedPacket_not_as_asked trialAsked firstRands zeroHeap⟩,
    ⟨_, rfl, udpPacket_not_as_asked trialAsked firstRands zeroHeap⟩⟩

end NetSec.Client
