/-
Do the checksums of the spoofer's packets verify? (client/spoofer.c, build_ip_header and send_spoofed_packet)

A receiver adds the words of the header, or of the pseudo header and the segment, with one's complement; the result must
be all ones.

build_ip_header complements every word before it adds it and complements the sum once more, which gives the sum itself
and not its complement. For TCP the sum is kept in 16 bits, so that carries are lost; a start value makes up for a
certain number of them; and the data is not added.

- `header_checks_iff`: the IP header verifies for one sum of the other words in 65535;
- `segment_verifies_iff`: the segment verifies for one number of carries and words of the data.
-/
import NetSec.Client.Spoofer

namespace NetSec.Client

open NetSec.Memory NetSec.OnesComplement

/-! ## The IP header -/

/-- the check of a header -/
def HeaderChecks (header : List Byte) : Prop := onesSum 65535 (bigWords header) = 65535

instance (header : List Byte) : Decidable (HeaderChecks header) := by unfold HeaderChecks; infer_instance

/-- the words of the header apart from its checksum: version and length, total length, ttl and protocol, addresses -/
def ipWords (src dest : BitVec 32) (ttl : Byte) (len : BitVec 16) : ℕ :=
  17664 + (len.toNat + 20) % 65536 + (256 * ttl.toNat + 17) + (src.toNat / 65536 + src.toNat % 65536) +
    (dest.toNat / 65536 + dest.toNat % 65536)

theorem bigWords_ipBytes (src dest : BitVec 32) (ttl : Byte) (len : BitVec 16) :
    (bigWords (ipBytes src dest ttl len [0, 0])).sum = ipWords src dest ttl len := by
  have hlen : (len + 20).toNat = (len.toNat + 20) % 65536 := BitVec.toNat_add len 20
  have hbytes : ipBytes src dest ttl len [0, 0] =
      [0x45, 0] ++ (htons (len + 20) ++ ([0, 0, 0, 0] ++ ([ttl, 0x11] ++ ([0, 0] ++ (htonl src ++ htonl dest))))) := rfl
  rw [hbytes, bigWords_append _ (by decide), bigWords_append _ (by simp [htons]), bigWords_append _ (by decide),
    bigWords_append _ (by simp), bigWords_append _ (by decide), bigWords_append _ (by simp [htonl]; decide),
    bigWords_htons, bigWords_htonl, bigWords_htonl, hlen]
  simp [bigWords, ipWords]
  omega

/-- storing a checksum adds it to the words -/
theorem littleWords_ipBytes (src dest : BitVec 32) (ttl : Byte) (len checksum : BitVec 16) :
    (littleWords (ipBytes src dest ttl len (hosts checksum))).sum =
      (littleWords (ipBytes src dest ttl len [0, 0])).sum + checksum.toNat := by
  have hbytes : ∀ c : List Byte, ipBytes src dest ttl len c =
      ([0x45, 0] ++ htons (len + 20) ++ [0, 0, 0, 0, ttl, 0x11]) ++ (c ++ (htonl src ++ htonl dest)) := by
    intro c
    simp only [ipBytes, List.append_assoc]
  have heven : Even ([0x45, 0] ++ htons (len + 20) ++ [0, 0, 0, 0, ttl, 0x11]).length := ⟨5, rfl⟩
  rw [hbytes, hbytes, littleWords_stored heven]

/-- complemented words, added and complemented again, are the words: up to multiples of 65535, and 9 -/
theorem ipChecksum_modEq (header : Mem) :
    (ipChecksum header).toNat ≡ (littleWords (load 20 0 header)).sum + 9 [MOD 65535] := by
  have hwords : littleWords (load 20 0 header) = (loadShorts 10 0 header).map BitVec.toNat :=
    littleWords_load 10 0 header
  rw [hwords]
  set words := loadShorts 10 0 header with hwordsdef
  set sum : BitVec 32 := words.foldl addCompl 0 with hsum
  have hfold : sum.toNat + ((words.map BitVec.toNat).sum + 10) ≡ 0 [MOD 2 ^ 32] := foldl_addCompl le_rfl words 0
  have hbound : (words.map BitVec.toNat).sum ≤ 10 * 65535 := by
    have hle := List.sum_le_card_nsmul (words.map BitVec.toNat) 65535 ?_
    · simpa [hwordsdef, loadShorts] using hle
    · intro x hx
      obtain ⟨w, -, rfl⟩ := List.mem_map.1 hx
      omega
  have hcarries := foldCarries_modEq sum
  have hle := foldCarries_le sum
  have hnot : (ipChecksum header).toNat = 65535 - (foldCarries sum).toNat := by
    show (~~~((foldCarries sum).setWidth 16)).toNat = _
    rw [BitVec.toNat_not, BitVec.toNat_setWidth]
    omega
  rw [hnot]
  unfold Nat.ModEq at *
  omega

/-- the words of the header that is returned: instead of nothing, twice the other words, and 9 -/
theorem littleWords_ipHeader (src dest : BitVec 32) (ttl : Byte) (len : BitVec 16) (heap : Mem) :
    (littleWords (load ipHeaderBytes 0 (buildIpHeader src dest ttl len heap))).sum ≡ 512 * ipWords src dest ttl len + 9
      [MOD 65535] ∧ (littleWords (load ipHeaderBytes 0 (buildIpHeader src dest ttl len heap))).sum ≠ 0 := by
  have hchecksum := ipChecksum_modEq (ipFields src dest ttl len heap)
  rw [ipFields_bytes] at hchecksum
  have hbig := littleWords_modEq (ipBytes src dest ttl len [0, 0])
  rw [bigWords_ipBytes] at hbig
  have hpos : (littleWords (ipBytes src dest ttl len [0, 0])).sum ≠ 0 := by
    rw [Ne, littleWords_sum_eq_zero, bigWords_ipBytes, ipWords]
    omega
  rw [ipHeaderBytes, ipHeader_bytes, littleWords_ipBytes]
  refine ⟨?_, by omega⟩
  unfold Nat.ModEq at *
  omega

/-- **When the header verifies.** For every source, destination, ttl and length: exactly when the one's complement sum
of the other nine words is 0xfb7f. -/
theorem header_checks_iff (src dest : BitVec 32) (ttl : Byte) (len : BitVec 16) (heap : Mem) :
    HeaderChecks (load ipHeaderBytes 0 (buildIpHeader src dest ttl len heap)) ↔
      ipWords src dest ttl len % 65535 = 0xfb7f := by
  obtain ⟨hsum, hpos⟩ := littleWords_ipHeader src dest ttl len heap
  rw [HeaderChecks, allOnes_bigWords_iff, and_iff_left hpos]
  unfold Nat.ModEq at hsum
  omega

/-- the addresses of the trial, and another source -/
def trialSrc : BitVec 32 := 0x0a040b11
def trialDest : BitVec 32 := 0x0a040bc1
def serverSrc : BitVec 32 := 0xc0a80165

/-- **A header that does not verify**: from 10.4.11.17 to 10.4.11.193, with ttl 64 and no data. -/
theorem trial_header_fails : ¬ HeaderChecks (load ipHeaderBytes 0 (buildIpHeader trialSrc trialDest 64 0 fun _ => 0)) := by
  obtain ⟨hsum, -⟩ := littleWords_ipHeader trialSrc trialDest 64 0 fun _ => 0
  have hwords : ipWords trialSrc trialDest 64 0 % 65535 = 45055 := by decide
  rw [HeaderChecks, allOnes_bigWords_iff]
  rintro ⟨hdvd, -⟩
  unfold Nat.ModEq at hsum
  omega

/-! ## The TCP segment -/

/-- the check of a segment, with the pseudo header of a receiver -/
def SegmentVerifies (src dest : BitVec 32) (segment : List Byte) : Prop :=
  onesSum 65535 (bigWords (htonl src ++ htonl dest ++ [0, tcpProtocol] ++ htons (BitVec.ofNat 16 segment.length) ++
    segment)) = 65535

/-- the words of the pseudo header and of the header apart from its checksum, with their bytes exchanged: addresses,
protocol, length, ports, sequence number, data offset and flags -/
def tcpWords (src dest : BitVec 32) (len : ℕ) (r : Rands) : ℕ :=
  swapped (src.toNat / 65536) + swapped (src.toNat % 65536) + swapped (dest.toNat / 65536) +
    swapped (dest.toNat % 65536) + swapped 6 + swapped ((len + 20) % 65536) +
    swapped ((4095 + r.port % 983040) % 65536) + swapped 53 + swapped (r.seq % 32767) + swapped 0x5002

theorem toNat_tcpLength (data : Payload) :
    (data.len + BitVec.ofNat 16 tcpHeaderBytes).toNat = (data.bytes.length + 20) % 65536 := by
  rw [BitVec.toNat_add, toNat_len]
  rfl

theorem littleWords_pseudoHeader (src dest : BitVec 32) (data : Payload) :
    (littleWords (pseudoHeader src dest data.len)).sum =
      swapped (src.toNat / 65536) + swapped (src.toNat % 65536) + swapped (dest.toNat / 65536) +
        swapped (dest.toNat % 65536) + swapped 6 + swapped ((data.bytes.length + 20) % 65536) := by
  have hprotocol : littleWords [0, tcpProtocol] = [swapped 6] := rfl
  have hsrc : Even (htonl src).length := ⟨2, rfl⟩
  have hdest : Even (htonl src ++ htonl dest).length := ⟨4, rfl⟩
  have hall : Even (htonl src ++ htonl dest ++ [0, tcpProtocol]).length := ⟨5, rfl⟩
  rw [pseudoHeader, littleWords_append _ hall, littleWords_append _ hdest, littleWords_append _ hsrc,
    littleWords_htonl, littleWords_htonl, littleWords_htons, hprotocol, toNat_tcpLength]
  simp only [List.sum_append, List.sum_cons, List.sum_nil]
  omega

theorem littleWords_tcpHeader (r : Rands) :
    (littleWords (tcpBytes (sourcePort r.port) (sequenceNumber r.seq) [0, 0])).sum =
      swapped ((4095 + r.port % 983040) % 65536) + swapped 53 + swapped (r.seq % 32767) + swapped 0x5002 := by
  have hport : (sourcePort r.port).toNat = (4095 + r.port % 983040) % 65536 := BitVec.toNat_ofNat _ _
  have hseq : (sequenceNumber r.seq).toNat = r.seq % 32767 := by
    rw [sequenceNumber, BitVec.toNat_ofNat]
    omega
  have hhigh : r.seq % 32767 / 65536 = 0 := by omega
  have hlow : r.seq % 32767 % 65536 = r.seq % 32767 := by omega
  have hdns : littleWords (htons 53) = [swapped 53] := rfl
  have hrest : littleWords ([0, 0, 0, 0, 0x50, 0x02, 0, 0] ++ [0, 0] ++ [0, 0]) = [0, 0, swapped 0x5002, 0, 0, 0] := rfl
  have hbytes : tcpBytes (sourcePort r.port) (sequenceNumber r.seq) [0, 0] =
      htons (sourcePort r.port) ++ (htons 53 ++ (htonl (sequenceNumber r.seq) ++
        ([0, 0, 0, 0, 0x50, 0x02, 0, 0] ++ [0, 0] ++ [0, 0]))) := rfl
  rw [hbytes, littleWords_append _ ⟨1, rfl⟩, littleWords_append _ ⟨1, rfl⟩, littleWords_append _ ⟨2, rfl⟩,
    littleWords_htons, littleWords_htonl, hdns, hrest, hport, hseq, hhigh, hlow]
  simp only [List.sum_append, List.sum_cons, List.sum_nil, swapped]
  omega

/-- in 16 bits: the start value, less the words, and one for each -/
theorem tcpChecksum_modEq (pseudo header : Mem) : (tcpChecksum pseudo header).toNat +
    ((littleWords (load 12 0 pseudo)).sum + (littleWords (load 20 0 header)).sum + 3) ≡ 0 [MOD 65536] := by
  have hpseudo : littleWords (load 12 0 pseudo) = (loadShorts 6 0 pseudo).map BitVec.toNat :=
    littleWords_load 6 0 pseudo
  have hheader : littleWords (load 20 0 header) = (loadShorts 10 0 header).map BitVec.toNat :=
    littleWords_load 10 0 header
  rw [hpseudo, hheader]
  set sum := (loadShorts 6 0 pseudo).foldl addCompl (0xD : BitVec 16)
  have hsum : sum.toNat + (((loadShorts 6 0 pseudo).map BitVec.toNat).sum + 6) ≡ 13 [MOD 2 ^ 16] :=
    foldl_addCompl (by norm_num) _ _
  have htotal : ((loadShorts 10 0 header).foldl addCompl sum).toNat +
      (((loadShorts 10 0 header).map BitVec.toNat).sum + 10) ≡ sum.toNat [MOD 2 ^ 16] :=
    foldl_addCompl (by norm_num) _ _
  have hchecksum : (tcpChecksum pseudo header).toNat = ((loadShorts 10 0 header).foldl addCompl sum).toNat := by
    have hsmall : ¬ 0xffff < (((loadShorts 10 0 header).foldl addCompl sum).setWidth 32).toNat := by
      rw [BitVec.toNat_setWidth]
      omega
    show ((foldCarries (((loadShorts 10 0 header).foldl addCompl sum).setWidth 32)).setWidth 16).toNat = _
    rw [foldCarries, if_neg hsmall, BitVec.toNat_setWidth, BitVec.toNat_setWidth]
    omega
  rw [hchecksum]
  unfold Nat.ModEq at *
  omega

theorem littleWords_tcpBytes (port : BitVec 16) (seq : BitVec 32) (checksum : BitVec 16) :
    (littleWords (tcpBytes port seq (hosts checksum))).sum =
      (littleWords (tcpBytes port seq [0, 0])).sum + checksum.toNat := by
  have hbytes : ∀ c : List Byte, tcpBytes port seq c =
      (htons port ++ htons 53 ++ htonl seq ++ [0, 0, 0, 0, 0x50, 0x02, 0, 0]) ++ (c ++ [0, 0]) := by
    intro c
    simp only [tcpBytes, List.append_assoc]
  have heven : Even (htons port ++ htons 53 ++ htonl seq ++ [0, 0, 0, 0, 0x50, 0x02, 0, 0]).length := ⟨8, rfl⟩
  rw [hbytes, hbytes, littleWords_stored heven]

/-- the receiver's pseudo header is the sender's, also where the length does not fit -/
theorem pseudoHeader_eq (src dest : BitVec 32) (data : Payload) (r : Rands) (heap : Heap) :
    htonl src ++ htonl dest ++ [0, tcpProtocol] ++ htons (BitVec.ofNat 16 (tcpSegment src dest data r heap).length) =
      pseudoHeader src dest data.len := by
  have hlength : (tcpSegment src dest data r heap).length = data.bytes.length + tcpHeaderBytes := by
    rw [tcpSegment, List.length_append, length_tcpBytes, Nat.add_comm]
    rfl
  rw [hlength, BitVec.ofNat_add]
  rfl

/-- the words that a receiver adds -/
theorem littleWords_segment (src dest : BitVec 32) (data : Payload) (r : Rands) (heap : Heap) :
    ∃ checksum, checksum < 65536 ∧ checksum + (tcpWords src dest data.bytes.length r + 3) ≡ 0 [MOD 65536] ∧
      (littleWords (pseudoHeader src dest data.len ++ tcpSegment src dest data r heap)).sum =
        tcpWords src dest data.bytes.length r + checksum + (littleWords data.bytes).sum := by
  have hpseudo : load 12 0 (store 0 (pseudoHeader src dest data.len) (calloc 12 fun _ => 0)) =
      pseudoHeader src dest data.len := (holds_store 0 _ _).load_eq rfl
  set checksum := tcpChecksum (store 0 (pseudoHeader src dest data.len) (calloc 12 fun _ => 0))
    (buildTcpHeader r heap.transport) with hdef
  have hchecksum := tcpChecksum_modEq (store 0 (pseudoHeader src dest data.len) (calloc 12 fun _ => 0))
    (buildTcpHeader r heap.transport)
  rw [← hdef, hpseudo, tcpHeader_bytes, littleWords_pseudoHeader, littleWords_tcpHeader] at hchecksum
  refine ⟨checksum.toNat, checksum.isLt, ?_, ?_⟩
  · unfold Nat.ModEq at *
    rw [tcpWords]
    omega
  · have hheader : Even (tcpBytes (sourcePort r.port) (sequenceNumber r.seq) (hosts checksum)).length := ⟨10, rfl⟩
    rw [tcpSegment, ← hdef, littleWords_append _ ⟨6, rfl⟩, littleWords_append _ hheader, List.sum_append,
      List.sum_append, littleWords_tcpBytes, littleWords_pseudoHeader, littleWords_tcpHeader, tcpWords]
    omega

theorem segment_eq (src dest : BitVec 32) (ttlHigh ttlLow : Byte) (data : Payload) (r : Rands) (heap : Heap) :
    (spoofedPacket src dest ttlHigh ttlLow data r heap).drop ipHeaderBytes = tcpSegment src dest data r heap := by
  obtain ⟨_, hpacket⟩ := spoofedPacket_bytes src dest ttlHigh ttlLow data r heap
  rw [hpacket]
  exact List.drop_left' (length_ipBytes _ _ _ _ _)

/-- the check, in the words of the sender -/
theorem segmentVerifies_iff_words (src dest : BitVec 32) (ttlHigh ttlLow : Byte) (data : Payload) (r : Rands)
    (heap : Heap) :
    SegmentVerifies src dest ((spoofedPacket src dest ttlHigh ttlLow data r heap).drop ipHeaderBytes) ↔
      65535 ∣ (littleWords (pseudoHeader src dest data.len ++ tcpSegment src dest data r heap)).sum := by
  obtain ⟨checksum, -, -, hsum⟩ := littleWords_segment src dest data r heap
  have hpos : tcpWords src dest data.bytes.length r ≠ 0 := by
    rw [tcpWords]
    simp only [swapped]
    omega
  rw [segment_eq, SegmentVerifies, pseudoHeader_eq, allOnes_bigWords_iff, hsum]
  exact and_iff_left (by omega)

/-- **When the segment verifies.** For every source, destination, data and every port and sequence number drawn: exactly
when the times that the words of the headers fill 16 bits, and the words of the data, come to 3. -/
theorem segment_verifies_iff (src dest : BitVec 32) (ttlHigh ttlLow : Byte) (data : Payload) (r : Rands)
    (heap : Heap) :
    SegmentVerifies src dest ((spoofedPacket src dest ttlHigh ttlLow data r heap).drop ipHeaderBytes) ↔
      ((tcpWords src dest data.bytes.length r + 65538) / 65536 + (littleWords data.bytes).sum) % 65535 = 3 := by
  obtain ⟨checksum, hlt, hchecksum, hsum⟩ := littleWords_segment src dest data r heap
  rw [segmentVerifies_iff_words, hsum]
  unfold Nat.ModEq at hchecksum
  omega

/-- the first numbers that rand gives a program that does not call srand -/
def firstRands : Rands := ⟨1804289383, 846930886, 1681692777⟩

def noData : Payload := ⟨[], by simp, by simp⟩

def oneByte : Payload := ⟨[0x61], by simp, by simp⟩

def zeroHeap : Heap := ⟨fun _ => 0, fun _ => 0, fun _ => 0⟩

/-- **Segments that do not verify**: from another source than the trial's, 192.168.1.101, and from the trial's with one
byte of data. -/
theorem other_segments_fail :
    ¬ SegmentVerifies serverSrc trialDest
      ((spoofedPacket serverSrc trialDest 64 20 noData firstRands zeroHeap).drop ipHeaderBytes) ∧
    ¬ SegmentVerifies trialSrc trialDest
      ((spoofedPacket trialSrc trialDest 64 20 oneByte firstRands zeroHeap).drop ipHeaderBytes) := by
  refine ⟨?_, ?_⟩
  · obtain ⟨checksum, hlt, hchecksum, hsum⟩ := littleWords_segment serverSrc trialDest noData firstRands zeroHeap
    have hwords : tcpWords serverSrc trialDest noData.bytes.length firstRands = 249017 := by decide
    have hdata : (littleWords noData.bytes).sum = 0 := rfl
    rw [segmentVerifies_iff_words, hsum, hwords, hdata]
    rw [hwords] at hchecksum
    unfold Nat.ModEq at hchecksum
    omega
  · obtain ⟨checksum, hlt, hchecksum, hsum⟩ := littleWords_segment trialSrc trialDest oneByte firstRands zeroHeap
    have hwords : tcpWords trialSrc trialDest oneByte.bytes.length firstRands = 185613 := by decide
    have hdata : (littleWords oneByte.bytes).sum = 0x61 := rfl
    rw [segmentVerifies_iff_words, hsum, hwords, hdata]
    rw [hwords] at hchecksum
    unfold Nat.ModEq at hchecksum
    omega

end NetSec.Client
