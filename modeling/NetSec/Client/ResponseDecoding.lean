/-
Is the answer decoded? query_dns on a response whose first answer is an A record (client/dnsutils.c, lines 104-141).

The question is echoed as it was sent (`sent_host`). The owner name of the answer is written out or goes on behind
pointers (`NameAt`), in the bytes a hostname can have: below 192, and not zero. The class, the TTL and the data are any.
The places of all fields follow from the length of the echoed name and from the count that ReadName reports; the block
for the data is asked for by a size that is computed with the bytes of the length swapped (`rdataSize`).

- `query_decodes`: query_dns returns a record with the owner name written out, the fields of the answer, and its data
  with a zero behind it;
- `rdataSize_of_lt`: the block has room for them when the length is below 0xff00, and `rdataSize_of_le`: from there on
  it has at most 255 bytes.
-/
import NetSec.Client.Decompression

namespace NetSec.Client

open NetSec.Memory

/-! ## The block for the data -/

/-- `ntohs(answer->resource->data_len + 1)`: data_len is still in network order when 1 is added -/
def rdataSize (dataLen : BitVec 16) : ℕ := (swap (swap dataLen + 1)).toNat

theorem swap_toNat (v : BitVec 16) : (swap v).toNat = v.toNat % 256 * 256 + v.toNat / 256 := by
  have hlow : (v.extractLsb' 0 8).toNat = v.toNat % 256 := by
    rw [BitVec.extractLsb'_toNat, Nat.shiftRight_eq_div_pow, pow_zero, Nat.div_one]
  have hhigh : (v.extractLsb' 8 8).toNat = v.toNat / 256 := by
    have hlt := v.isLt
    rw [BitVec.extractLsb'_toNat, Nat.shiftRight_eq_div_pow]
    omega
  rw [swap, BitVec.toNat_append, ← Nat.shiftLeft_add_eq_or_of_lt (v.extractLsb' 8 8).isLt, Nat.shiftLeft_eq, hlow,
    hhigh]

theorem rdataSize_eq (dataLen : BitVec 16) : rdataSize dataLen =
    (dataLen.toNat % 256 * 256 + dataLen.toNat / 256 + 1) % 2 ^ 16 % 256 * 256 +
      (dataLen.toNat % 256 * 256 + dataLen.toNat / 256 + 1) % 2 ^ 16 / 256 := by
  rw [rdataSize, swap_toNat, BitVec.toNat_add, swap_toNat]
  rfl

/-- **Room enough**: the 1 goes to the byte that counts 256 -/
theorem rdataSize_of_lt {dataLen : BitVec 16} (h : dataLen.toNat < 0xff00) :
    rdataSize dataLen = dataLen.toNat + 256 := by
  have hsplit := Nat.div_add_mod dataLen.toNat 256
  have hlow : dataLen.toNat % 256 < 256 := Nat.mod_lt _ (by decide)
  have hhigh : dataLen.toNat / 256 < 255 := by omega
  rw [rdataSize_eq]
  generalize dataLen.toNat / 256 = high at *
  generalize dataLen.toNat % 256 = low at *
  have hmod : (low * 256 + high + 1) % 2 ^ 16 = low * 256 + (high + 1) := by omega
  rw [hmod]
  omega

theorem rdataSize_of_le {dataLen : BitVec 16} (h : 0xff00 ≤ dataLen.toNat) : rdataSize dataLen ≤ 255 := by
  have hlow : dataLen.toNat % 256 < 256 := Nat.mod_lt _ (by decide)
  have hhigh : dataLen.toNat / 256 = 255 := by
    have hlt := dataLen.isLt
    omega
  rw [rdataSize_eq, hhigh]
  generalize dataLen.toNat % 256 = low at *
  have hmod : (low * 256 + 255 + 1) % 2 ^ 16 = (low + 1) % 256 * 256 := by omega
  rw [hmod]
  omega

theorem lt_rdataSize_iff (dataLen : BitVec 16) : dataLen.toNat < rdataSize dataLen ↔ dataLen.toNat < 0xff00 := by
  by_cases h : dataLen.toNat < 0xff00
  · rw [rdataSize_of_lt h]
    exact iff_of_true (by omega) h
  · have hle := rdataSize_of_le (Nat.le_of_not_lt h)
    omega

/-! ## Responses -/

/-- a response to a query for a hostname, up to its first answer, which is an A record, and what follows -/
structure AddressParts where
  id : BitVec 16
  flags : BitVec 16
  ansCount : BitVec 16
  authCount : BitVec 16
  addCount : BitVec 16
  /-- the owner name as it is sent -/
  owner : List Byte
  cls : BitVec 16
  ttl : BitVec 32
  rdata : List Byte
  rest : List Byte

def AddressParts.header (p : AddressParts) : List Byte :=
  htons p.id ++ htons p.flags ++ htons 1 ++ htons p.ansCount ++ htons p.authCount ++ htons p.addCount

def AddressParts.fixed (p : AddressParts) : List Byte :=
  htons tA ++ (htons p.cls ++ (htonl p.ttl ++ htons (BitVec.ofNat 16 p.rdata.length)))

def AddressParts.datagram (p : AddressParts) (host : Hostname) (queryType : BitVec 16) : List Byte :=
  p.header ++ (wires host.labels ++ [0] ++ (qinfo queryType ++ (p.owner ++ (p.fixed ++ (p.rdata ++ p.rest)))))

/-- a well-formed one: `labels` are those of the owner name, written out -/
structure AddressResponse (host : Hostname) (queryType : BitVec 16) extends AddressParts where
  answered : ansCount ≠ 0
  labels : List Label
  named : NameAt (toAddressParts.datagram host queryType) (recordAt (wires host.labels).length) labels owner.length
  plain : ∀ l ∈ labels, ∀ b ∈ l.bytes, PlainByte b
  short : (wires labels).length + 1 ≤ 255
  shortData : rdata.length < 0xff00
  fits : (toAddressParts.datagram host queryType).length ≤ bigBufferSize

def AddressResponse.bytes {host : Hostname} {queryType : BitVec 16} (r : AddressResponse host queryType) : List Byte :=
  r.datagram host queryType

/-- the record says what the answer says -/
structure Decoded {host : Hostname} {queryType : BitVec 16} (r : AddressResponse host queryType) (rec : ResRecord) :
    Prop where
  name : Holds rec.name 0 (joined r.labels ++ [0])
  resource : rec.resource = ⟨tA, r.cls, r.ttl, BitVec.ofNat 16 r.rdata.length⟩
  dataLen : rec.resource.dataLen.toNat = r.rdata.length
  rdata : Holds rec.rdata 0 (r.rdata ++ [0])
  room : (r.rdata ++ [0]).length ≤ rdataSize rec.resource.dataLen

/-! ## Places -/

theorem qname_host (host : Hostname) : qname host.text = wires host.labels := by
  have hplain : ∀ b ∈ wires host.labels, PlainByte b := plain_wires fun l hl b hb => (host.plain l hl b hb).1
  rw [qname, fillDnsFromHost_host, List.takeWhile_append_of_pos]
  · simp
  · intro b hb
    simpa using (hplain b hb).1

/-- the question of a response is the one that is sent -/
theorem sent_host (id : BitVec 16) (host : Hostname) (queryType : BitVec 16) (buf : Mem) :
    sent id host.text queryType buf = queryHeader id ++ (wires host.labels ++ [0] ++ qinfo queryType) := by
  rw [sent_eq, qname_host]

section Places

variable {host : Hostname} {queryType : BitVec 16} (r : AddressResponse host queryType) (u : Uninit) (id : BitVec 16)

/-- the buffer when the response has come -/
def AddressResponse.buf : Mem := received u id host.text queryType r.bytes

theorem AddressResponse.holds : Holds (r.buf u id) 0 r.bytes := received_holds u id host.text queryType r.fits

/-- the header, the echoed name, and the answer are where query_dns looks for them -/
theorem AddressResponse.places :
    ntohs 6 (r.buf u id) ≠ 0 ∧ EndsAfter (r.buf u id) 12 (wires host.labels).length ∧
      Holds (r.buf u id) (recordAt (wires host.labels).length) (r.owner ++ (r.fixed ++ (r.rdata ++ r.rest))) := by
  have hall := r.holds u id
  unfold AddressResponse.bytes AddressParts.datagram at hall
  obtain ⟨hheader, hall⟩ := holds_append.1 hall
  obtain ⟨hname, hall⟩ := holds_append.1 hall
  obtain ⟨-, hall⟩ := holds_append.1 hall
  refine ⟨?_, ?_, ?_⟩
  · have hcount : Holds (r.buf u id) 6 (htons r.ansCount) :=
      (holds_append.1 (holds_append.1 (holds_append.1 hheader).1).1).2
    rw [ntohs_of_holds hcount]
    exact r.answered
  · apply endsAfter_of_holds hname
    intro h0
    exact (plain_wires (fun l hl b hb => (host.plain l hl b hb).1) 0 h0).1 rfl
  · have hplace : 0 + r.header.length + (wires host.labels ++ [0]).length + (qinfo queryType).length =
        recordAt (wires host.labels).length := by
      simp only [List.length_append, recordAt, AddressParts.header, qinfo, htons, List.length_cons, List.length_nil]
    rwa [hplace] at hall

/-- the count that ReadName reports brings query_dns to the fields, and these to the data -/
theorem AddressResponse.record :
    rData (recordAt (wires host.labels).length + r.owner.length) (r.buf u id) =
        ⟨tA, r.cls, r.ttl, BitVec.ofNat 16 r.rdata.length⟩ ∧
      Holds (r.buf u id) (recordAt (wires host.labels).length + r.owner.length + 10) r.rdata := by
  obtain ⟨-, -, hrecord⟩ := r.places u id
  obtain ⟨-, hrecord⟩ := holds_append.1 hrecord
  obtain ⟨hfixed, hdata⟩ := holds_append.1 hrecord
  exact ⟨rData_of_holds hfixed, (holds_append.1 hdata).1⟩

end Places

/-! ## Decoding -/

theorem AddressResponse.dataLen_toNat {host : Hostname} {queryType : BitVec 16} (r : AddressResponse host queryType) :
    (BitVec.ofNat 16 r.rdata.length).toNat = r.rdata.length := by
  have hshort := r.shortData
  rw [BitVec.toNat_ofNat]
  omega

/-- **The record that is returned**, once the loops had steps enough, is what the answer says. -/
theorem query_decodes {host : Hostname} {queryType : BitVec 16} (r : AddressResponse host queryType) (u : Uninit)
    (id : BitVec 16) : ∃ fuel rec, Decoded r rec ∧
      ∀ fuel', fuel ≤ fuel' → queryDns fuel' u id host.text queryType (some r.bytes) = some (some rec) := by
  obtain ⟨hcount, hquestion, -⟩ := r.places u id
  obtain ⟨hread, hdata⟩ := r.record u id
  obtain ⟨fuel, hname⟩ := readName_nameAt r.named (r.holds u id) r.plain u.name
  have hload : load r.rdata.length (recordAt (wires host.labels).length + r.owner.length + 10) (r.buf u id) = r.rdata :=
    hdata.load_eq rfl
  let out : ResRecord := ⟨dotted (wires r.labels) u.name, ⟨tA, r.cls, r.ttl, BitVec.ofNat 16 r.rdata.length⟩,
    store 0 (r.rdata ++ [0]) u.rdata⟩
  refine ⟨max fuel ((wires host.labels).length + 1), out, ?_, ?_⟩
  · refine ⟨?_, rfl, r.dataLen_toNat, holds_store 0 (r.rdata ++ [0]) u.rdata, ?_⟩
    · apply dotted_wires
      intro l hl h0
      exact (r.plain l hl 0 h0).1 rfl
    · have hshort := r.shortData
      have hlen := r.dataLen_toNat
      rw [rdataSize_of_lt (by rw [hlen]; exact hshort), hlen, List.length_append, List.length_singleton]
      omega
  · intro fuel' hle
    have hstrlen : strlen fuel' 12 (r.buf u id) = some (wires host.labels).length :=
      strlen_eq_some.2 ⟨by omega, hquestion⟩
    have howner := hname fuel' (by omega)
    apply queryDns_eq_record.2
    refine ⟨hcount, ?_⟩
    change readAnswer fuel' u (r.buf u id) = some out
    unfold recordAt at hread howner hload
    simp only [readAnswer, Option.bind_eq_bind, hstrlen, howner, hread, Option.bind_some, if_true, r.dataLen_toNat,
      hload]
    rfl

/-- the host "a", and an answer whose owner name is only a pointer to the question's name -/
def shortHost : Hostname := ⟨[⟨[97], by decide, by decide⟩], by decide, by decide, by decide⟩

def pointerParts : AddressParts := ⟨0, 0x8180, 1, 0, 0, [0xC0, 12], 1, 300, [10, 0, 0, 1], []⟩

def pointerResponse : AddressResponse shortHost tA where
  toAddressParts := pointerParts
  answered := by decide
  labels := shortHost.labels
  named := @NameAt.pointer _ _ 3 12 _ (by decide) (by decide) (.label (by decide) (.root (by decide)))
  plain := by decide
  short := by decide
  shortData := by decide
  fits := by decide

theorem query_decodes_pointer : ∃ fuel rec, Decoded pointerResponse rec ∧
    queryDns fuel zeros 1234 shortHost.text tA (some pointerResponse.bytes) = some (some rec) := by
  obtain ⟨fuel, rec, hdecoded, hquery⟩ := query_decodes pointerResponse zeros 1234
  exact ⟨fuel, rec, hdecoded, hquery fuel le_rfl⟩

end NetSec.Client
