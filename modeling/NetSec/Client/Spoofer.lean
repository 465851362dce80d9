/-
The packets of the spoofer: build_ip_header, build_tcp_header, build_udp_header, send_spoofed_packet, send_udp_packet
(client/spoofer.c; the constants of client/include/spoofer.h).

A header is built in a block that calloc gives, on a little-endian machine; a packet is put together in another one.
What `rand` returns for the ttl, the port and the sequence number is in `Rands`, and what memory held before in `Heap`:
the UDP header lies in a block of 16 bytes, of which 20 are copied. A call whose socket cannot be set up sends nothing.

- `ipHeader_bytes`, `tcpHeader_bytes`, `udpHeader_bytes`: the headers, byte by byte;
- `spoofedPacket_bytes`, `udpPacket_bytes`: the packets.
-/
import NetSec.Core.OnesComplement

namespace NetSec.Client

open NetSec.Memory NetSec.OnesComplement

def ipHeaderBytes : ℕ := 20
def tcpHeaderBytes : ℕ := 20
def udpHeaderBytes : ℕ := 8
def tcpProtocol : Byte := 6
def udpProtocol : Byte := 0x11

/-- a C string that is given with its length -/
structure Payload where
  bytes : List Byte
  noZero : 0 ∉ bytes
  fits : bytes.length < 2 ^ 16

/-- `len_data` -/
def Payload.len (data : Payload) : BitVec 16 := BitVec.ofNat 16 data.bytes.length

structure Rands where
  ttl : ℕ
  port : ℕ
  seq : ℕ

/-- what memory held before: the two blocks of the headers, and that of the packet -/
structure Heap where
  ip : Mem
  transport : Mem
  message : Mem

/-! ## Headers -/

/-- the header before its checksum is stored -/
def ipFields (src dest : BitVec 32) (ttl : Byte) (len : BitVec 16) (heap : Mem) : Mem :=
  let header := store 0 [0x5 + (0x4 <<< 4)] (calloc ipHeaderBytes heap)
  let header := store 2 (htons (len + BitVec.ofNat 16 tcpHeaderBytes)) header
  let header := store 8 [ttl] header
  let header := store 9 [udpProtocol] header
  store 16 (htonl dest) (store 12 (htonl src) header)

def ipChecksum (header : Mem) : BitVec 16 :=
  let sum : BitVec 32 := (loadShorts (ipHeaderBytes / 2) 0 header).foldl addCompl 0
  ~~~((foldCarries sum).setWidth 16)

def buildIpHeader (src dest : BitVec 32) (ttl : Byte) (len : BitVec 16) (heap : Mem) : Mem :=
  let header := ipFields src dest ttl len heap
  store 10 (hosts (ipChecksum header)) header

def sourcePort (rand : ℕ) : BitVec 16 := BitVec.ofNat 16 (0xfff + rand % 0xf0000)

def sequenceNumber (rand : ℕ) : BitVec 32 := BitVec.ofNat 32 (rand % 0x7fff)

/-- the header before the SYN bit is set -/
def tcpFields (r : Rands) (heap : Mem) : Mem :=
  let header := store 0 (htons (sourcePort r.port)) (calloc tcpHeaderBytes heap)
  let header := store 2 (htons 53) header
  let header := store 4 (htonl (sequenceNumber r.seq)) header
  let header := store 8 (htonl 0) header
  store 12 [BitVec.ofNat 8 (tcpHeaderBytes / 4) <<< 4] header

def buildTcpHeader (r : Rands) (heap : Mem) : Mem :=
  let header := tcpFields r heap
  store 13 [header 13 ||| 0x2] header

def udpSourcePort (rand : ℕ) : BitVec 16 := BitVec.ofNat 16 (0xfff + rand % 0xf000)

/-- the block has two bytes for each byte of the header -/
def buildUdpHeader (len : BitVec 16) (r : Rands) (heap : Mem) : Mem :=
  let header := store 0 (htons (udpSourcePort r.port)) (calloc (udpHeaderBytes * 2) heap)
  let header := store 2 (htons 53) header
  let header := store 4 (htons (len + BitVec.ofNat 16 udpHeaderBytes)) header
  store 6 (htons 0) header

def pseudoHeader (src dest : BitVec 32) (len : BitVec 16) : List Byte :=
  htonl src ++ htonl dest ++ [0, tcpProtocol] ++ htons (len + BitVec.ofNat 16 tcpHeaderBytes)

/-- the loops over the pseudo header and the header, and the loop that finds no carry in 16 bits -/
def tcpChecksum (pseudo : Mem) (header : Mem) : BitVec 16 :=
  let sum := (loadShorts 6 0 pseudo).foldl addCompl (0xD : BitVec 16)
  let sum := (loadShorts (tcpHeaderBytes / 2) 0 header).foldl addCompl sum
  (foldCarries (sum.setWidth 32)).setWidth 16

/-! ## Packets -/

/-- `rand() % ( ttl_high - ttl_low + 1 ) + ttl_low`, for bounds that do not make it a division by zero -/
def randomTtl (ttlHigh ttlLow : Byte) (rand : ℕ) : Byte :=
  BitVec.ofInt 8 ((rand : ℤ).tmod (ttlHigh.toNat - ttlLow.toNat + 1) + ttlLow.toNat)

/-- what is handed to sendto -/
def spoofedPacket (src dest : BitVec 32) (ttlHigh ttlLow : Byte) (data : Payload) (r : Rands) (heap : Heap) :
    List Byte :=
  let ipHeader := buildIpHeader src dest (randomTtl ttlHigh ttlLow r.ttl) data.len heap.ip
  let tcpHeader := buildTcpHeader r heap.transport
  let pseudo := store 0 (pseudoHeader src dest data.len) (calloc 12 fun _ => 0)
  let tcpHeader := store 16 (hosts (tcpChecksum pseudo tcpHeader)) tcpHeader
  let messageLen := ipHeaderBytes + tcpHeaderBytes + data.len.toNat
  let message := store 0 (load ipHeaderBytes 0 ipHeader) (calloc messageLen heap.message)
  let message := store ipHeaderBytes (load tcpHeaderBytes 0 tcpHeader) message
  load messageLen 0 (store (ipHeaderBytes + tcpHeaderBytes) data.bytes message)

def udpPacket (src dest : BitVec 32) (ttlHigh ttlLow : Byte) (data : Payload) (r : Rands) (heap : Heap) : List Byte :=
  let ipHeader := buildIpHeader src dest (randomTtl ttlHigh ttlLow r.ttl) data.len heap.ip
  let udpHeader := buildUdpHeader data.len r heap.transport
  let messageLen := ipHeaderBytes + tcpHeaderBytes + data.len.toNat
  let message := store 0 (load ipHeaderBytes 0 ipHeader) (calloc messageLen heap.message)
  let message := store ipHeaderBytes (load tcpHeaderBytes 0 udpHeader) message
  load messageLen 0 (store (ipHeaderBytes + udpHeaderBytes) data.bytes message)

/-- what the calls on the socket return -/
structure Sockets where
  socket : ℤ
  setsockopt : ℤ
  sendto : ℤ

/-- what was sent, and the result -/
def sendSpoofedPacket (net : Sockets) (src dest : BitVec 32) (ttlHigh ttlLow : Byte) (data : Payload) (r : Rands)
    (heap : Heap) : Option (List Byte) × ℤ :=
  if net.socket = -1 ∨ net.setsockopt = -1 then (none, -1)
  else (some (spoofedPacket src dest ttlHigh ttlLow data r heap), if net.sendto = -1 then -1 else 0)

/-- here the socket is not checked -/
def sendUdpPacket (net : Sockets) (src dest : BitVec 32) (ttlHigh ttlLow : Byte) (data : Payload) (r : Rands)
    (heap : Heap) : Option (List Byte) × ℤ :=
  if net.setsockopt = -1 then (none, -1)
  else (some (udpPacket src dest ttlHigh ttlLow data r heap), if net.sendto = -1 then -1 else 0)

/-! ## The bytes -/

def ipBytes (src dest : BitVec 32) (ttl : Byte) (len : BitVec 16) (checksum : List Byte) : List Byte :=
  [0x45, 0] ++ htons (len + 20) ++ [0, 0, 0, 0, ttl, 0x11] ++ checksum ++ htonl src ++ htonl dest

theorem ipFields_bytes (src dest : BitVec 32) (ttl : Byte) (len : BitVec 16) (heap : Mem) :
    load 20 0 (ipFields src dest ttl len heap) = ipBytes src dest ttl len [0, 0] := rfl

theorem ipHeader_bytes (src dest : BitVec 32) (ttl : Byte) (len : BitVec 16) (heap : Mem) :
    load 20 0 (buildIpHeader src dest ttl len heap) =
      ipBytes src dest ttl len (hosts (ipChecksum (ipFields src dest ttl len heap))) := rfl

def tcpBytes (port : BitVec 16) (seq : BitVec 32) (checksum : List Byte) : List Byte :=
  htons port ++ htons 53 ++ htonl seq ++ [0, 0, 0, 0, 0x50, 0x02, 0, 0] ++ checksum ++ [0, 0]

theorem tcpHeader_eq (r : Rands) (heap : Mem) : buildTcpHeader r heap = store 13 [0x02] (tcpFields r heap) := by
  have hflags : tcpFields r heap 13 = 0 := rfl
  rw [buildTcpHeader, hflags]
  rfl

theorem tcpHeader_bytes (r : Rands) (heap : Mem) :
    load 20 0 (buildTcpHeader r heap) = tcpBytes (sourcePort r.port) (sequenceNumber r.seq) [0, 0] := by
  rw [tcpHeader_eq]
  rfl

theorem tcpHeader_bytes_checksum (r : Rands) (heap : Mem) (checksum : BitVec 16) :
    load 20 0 (store 16 (hosts checksum) (buildTcpHeader r heap)) =
      tcpBytes (sourcePort r.port) (sequenceNumber r.seq) (hosts checksum) := by
  rw [tcpHeader_eq]
  rfl

/-- eight bytes of header, the rest of the block, and four bytes from behind it -/
theorem udpHeader_bytes (len : BitVec 16) (r : Rands) (heap : Mem) :
    load 20 0 (buildUdpHeader len r heap) =
      htons (udpSourcePort r.port) ++ htons 53 ++ htons (len + 8) ++ [0, 0] ++ List.replicate 8 0 ++
        load 4 16 heap := rfl

theorem length_ipBytes (src dest : BitVec 32) (ttl : Byte) (len checksum : BitVec 16) :
    (ipBytes src dest ttl len (hosts checksum)).length = 20 := rfl

theorem length_tcpBytes (port : BitVec 16) (seq : BitVec 32) (checksum : BitVec 16) :
    (tcpBytes port seq (hosts checksum)).length = 20 := rfl

theorem toNat_len (data : Payload) : data.len.toNat = data.bytes.length := by
  rw [Payload.len, BitVec.toNat_ofNat]
  exact Nat.mod_eq_of_lt data.fits

/-- the segment that is sent -/
def tcpSegment (src dest : BitVec 32) (data : Payload) (r : Rands) (heap : Heap) : List Byte :=
  let pseudo := store 0 (pseudoHeader src dest data.len) (calloc 12 fun _ => 0)
  tcpBytes (sourcePort r.port) (sequenceNumber r.seq) (hosts (tcpChecksum pseudo (buildTcpHeader r heap.transport))) ++
    data.bytes

/-- **The packet of send_spoofed_packet.** -/
theorem spoofedPacket_bytes (src dest : BitVec 32) (ttlHigh ttlLow : Byte) (data : Payload) (r : Rands) (heap : Heap) :
    ∃ checksum : BitVec 16, spoofedPacket src dest ttlHigh ttlLow data r heap =
      ipBytes src dest (randomTtl ttlHigh ttlLow r.ttl) data.len (hosts checksum) ++
        tcpSegment src dest data r heap := by
  refine ⟨ipChecksum (ipFields src dest (randomTtl ttlHigh ttlLow r.ttl) data.len heap.ip), ?_⟩
  simp only [spoofedPacket, ipHeaderBytes, tcpHeaderBytes, ipHeader_bytes, tcpHeader_bytes_checksum, tcpSegment,
    toNat_len]
  set ip := ipBytes src dest (randomTtl ttlHigh ttlLow r.ttl) data.len _
  set tcp := tcpBytes (sourcePort r.port) (sequenceNumber r.seq) _
  have hip : ip.length = 20 := length_ipBytes _ _ _ _ _
  have htcp : tcp.length = 20 := length_tcpBytes _ _ _
  set message := calloc (20 + 20 + data.bytes.length) heap.message
  have hstored : store (20 + 20) data.bytes (store 20 tcp (store 0 ip message)) = store 0 (ip ++ (tcp ++ data.bytes))
      message := by
    rw [store_append, store_append, hip, htcp]
  have hlength : (ip ++ (tcp ++ data.bytes)).length = 20 + 20 + data.bytes.length := by
    rw [List.length_append, List.length_append, hip, htcp, Nat.add_assoc]
  rw [hstored]
  exact (holds_store 0 _ message).load_eq hlength

/-- **The packet of send_udp_packet.** Behind the data come 12 bytes that nothing asked for. -/
theorem udpPacket_bytes (src dest : BitVec 32) (ttlHigh ttlLow : Byte) (data : Payload) (r : Rands) (heap : Heap) :
    ∃ (checksum : BitVec 16) (rest : List Byte), rest.length = 12 ∧
      udpPacket src dest ttlHigh ttlLow data r heap =
        ipBytes src dest (randomTtl ttlHigh ttlLow r.ttl) data.len (hosts checksum) ++
          (htons (udpSourcePort r.port) ++ htons 53 ++ htons (data.len + 8) ++ [0, 0] ++ data.bytes ++ rest) := by
  simp only [udpPacket, ipHeaderBytes, tcpHeaderBytes, udpHeaderBytes, ipHeader_bytes, udpHeader_bytes, toNat_len]
  set ip := ipBytes src dest (randomTtl ttlHigh ttlLow r.ttl) data.len _
  set udp := htons (udpSourcePort r.port) ++ htons 53 ++ htons (data.len + 8) ++ [0, 0]
  have hip : ip.length = 20 := length_ipBytes _ _ _ _ _
  have hudp : udp.length = 8 := rfl
  set message := calloc (20 + 20 + data.bytes.length) heap.message
  -- what is copied is the header and what lies behind it, over which the data is written
  have hcopied : store 20 (udp ++ List.replicate 8 0 ++ load 4 16 heap.transport) (store 0 ip message) =
      store 28 (List.replicate 8 0 ++ load 4 16 heap.transport) (store 0 (ip ++ udp) message) := by
    have hheaders : store 0 (ip ++ udp) message = store 20 udp (store 0 ip message) := by rw [store_append, hip]
    rw [hheaders, List.append_assoc, store_append 20 udp, hudp]
  rw [hcopied]
  set copied := store 28 (List.replicate 8 0 ++ load 4 16 heap.transport) (store 0 (ip ++ udp) message)
  have hfront : Holds (store (20 + 8) data.bytes copied) 0 (ip ++ udp ++ data.bytes) := by
    have hlength : (ip ++ udp).length = 28 := by rw [List.length_append, hip, hudp]
    refine holds_append.2 ⟨?_, ?_⟩
    · apply Holds.store _ (by omega)
      exact (holds_store 0 (ip ++ udp) message).store (by omega) _
    · rw [hlength]
      exact holds_store 28 data.bytes copied
  have hlength : 20 + 20 + data.bytes.length = (ip ++ udp ++ data.bytes).length + 12 := by
    rw [List.length_append, List.length_append, hip, hudp]
    omega
  set rest := load 12 (0 + (ip ++ udp ++ data.bytes).length) (store (20 + 8) data.bytes copied)
  have hrest : rest.length = 12 := length_load 12 _ _
  refine ⟨ipChecksum (ipFields src dest (randomTtl ttlHigh ttlLow r.ttl) data.len heap.ip), rest, hrest, ?_⟩
  rw [hlength, load_add, hfront.load_eq rfl]
  simp only [List.append_assoc, ip, rest]

end NetSec.Client
