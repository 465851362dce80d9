/-
The filter in front of the DNS server's answers: handle_packet and handle_dns (DNS/DNSFilter.py, lines 16-60), with the
NAT server that it asks and the query_dns that reads its responses.

Every queued packet is dropped. For an answer of the DNS server (UDP, not from 127.0.0.1, source port 53) the filter
asks the NAT server for a lease of the destination's network, and sends a response of its own: addresses, ports, id and
question of the answer, and one A record, with the address and the TTL of the acknowledgement, in each section.

scapy is not the filter's own, so that the bytes it writes for a message are a parameter. `WritesRfc1035` is its
documentation, as far as the filter relies on it: a message whose records are of addresses, with TTLs of 32 bits, is
written in the format of RFC 1035, names written out, sections one behind the other, a count that is not given (ARCOUNT)
computed, fields that are not given 0 but for RD, whose default depends on the version. For other messages nothing is
said. A packet without a question raises an exception, and no response is sent.

`Replaces`: a response goes where the answer went, and query_dns, whatever its buffer held before, reads from it exactly
the address and the lifetime of a lease acknowledged for the destination's /26.

- `natExchange_some`: an exchange with the NAT server is one `add` of the server, and gives what it acknowledged;
- `response_decodes`: the bytes of a response are read by query_dns as what they were built from;
- `answers_replaced`: in every run of packets and server operations, every packet is dropped, and exactly the answers
  with a question are replaced, one by one and in order.
-/
import NetSec.Filter.HopCount
import NetSec.Filter.WireFormat
import NetSec.Client.ResponseDecoding

namespace NetSec.DnsFilter

open NetSec.Client NetSec.Filter NetSec.Memory NetSec.NatServer NetSec.Run NetSec.Text

/-! ## Messages -/

/-- the address as its four bytes -/
def octets (ip : IPv4) : List Byte :=
  [BitVec.ofNat 8 ip.a, BitVec.ofNat 8 ip.b, BitVec.ofNat 8 ip.c, BitVec.ofNat 8 ip.d]

/-- the address as an `in_addr` of the client holds it -/
def inAddr (ip : IPv4) : BitVec 32 :=
  BitVec.ofNat 8 ip.d ++ BitVec.ofNat 8 ip.c ++ BitVec.ofNat 8 ip.b ++ BitVec.ofNat 8 ip.a

structure DnsQR where
  qname : Hostname
  qtype : BitVec 16
  qclass : BitVec 16

/-- an A record of class IN -/
structure DnsRR where
  rrname : Hostname
  ttl : ℤ
  rdlen : BitVec 16
  rdata : Text

structure Dns where
  id : BitVec 16
  qr : BitVec 1
  rcode : BitVec 4
  qdcount : BitVec 16
  ancount : BitVec 16
  nscount : BitVec 16
  qd : DnsQR
  an : DnsRR
  ns : DnsRR
  ar : DnsRR

/-! ## scapy -/

/-- the bytes of a message; `none` when an exception is raised -/
abbrev Scapy := Dns → Option (List Byte)

/-- the record is of the address, and its TTL has 32 bits -/
def DnsRR.IsOf (rr : DnsRR) (ip : IPv4) : Prop := rr.rdata = ip.text ∧ 0 ≤ rr.ttl ∧ rr.ttl < 2 ^ 32

def DnsQR.wire (q : DnsQR) : List Byte := wires q.qname.labels ++ [0] ++ (htons q.qtype ++ htons q.qclass)

def DnsRR.wire (rr : DnsRR) (ip : IPv4) : List Byte :=
  wires rr.rrname.labels ++ [0] ++
    (htons tA ++ (htons 1 ++ (htonl (BitVec.ofInt 32 rr.ttl) ++ htons rr.rdlen)) ++ octets ip)

/-- QR, opcode, AA, TC, RD, RA and Z, RCODE -/
def Dns.flags (rd : BitVec 1) (d : Dns) : BitVec 16 := d.qr ++ 0#4 ++ 0#2 ++ rd ++ 0#4 ++ d.rcode

def Dns.header (rd : BitVec 1) (d : Dns) : List Byte :=
  htons d.id ++ htons (d.flags rd) ++ htons d.qdcount ++ htons d.ancount ++ htons d.nscount ++ htons 1

/-- the message in the format of RFC 1035, section 4, with records of these addresses -/
def Dns.wire (rd : BitVec 1) (d : Dns) (an ns ar : IPv4) : List Byte :=
  d.header rd ++ (d.qd.wire ++ (d.an.wire an ++ (d.ns.wire ns ++ d.ar.wire ar)))

/-- scapy as it is documented -/
def WritesRfc1035 (scapy : Scapy) : Prop :=
  ∀ d an ns ar, d.an.IsOf an → d.ns.IsOf ns → d.ar.IsOf ar → ∃ rd, scapy d = some (d.wire rd an ns ar)

/-! ## The filter -/

/-- a packet of the queue; ports, id and question are those of a UDP packet with a DNS message -/
structure Queued where
  proto : Fin 256
  src : IPv4
  dst : IPv4
  sport : Fin 65536
  dport : Fin 65536
  id : BitVec 16
  question : Option DnsQR

/-- a packet that is sent -/
structure Reply where
  src : IPv4
  dst : IPv4
  sport : Fin 65536
  dport : Fin 65536
  dns : List Byte

/-- what NAT_update sends -/
def addMessage (ip : Text) : Text := "ADD;".toList ++ ip

/-- NAT_update with the server at the other end: the address and the lifetime it returns, and the server after it;
`none` when there is no answer that it can read, or no server any more -/
def natExchange (e : RequestEnv) (ip : Text) (s : Server) : Option ((Text × ℤ) × Server) := do
  let o ← handleRequest e (recvAll (addMessage ip)) s
  let ack ← o.reply
  let natreply ← natUpdate (recvLimit .add) ack
  if o.survives then some (natreply, o.srv) else none

/-- the response, once NAT_update has returned -/
def handleDns (scapy : Scapy) (natreply : Text × ℤ) (pkt : Queued) : Option Reply := do
  let qd ← pkt.question
  let rr : DnsRR := ⟨qd.qname, natreply.2, 4, natreply.1⟩
  let bytes ← scapy ⟨pkt.id, 1, 0, 1, 1, 1, qd, rr, rr, rr⟩
  some ⟨pkt.src, pkt.dst, pkt.sport, pkt.dport, bytes⟩

/-- handle_packet hands the packet to handle_dns -/
def IsAnswer (pkt : Queued) : Prop := pkt.proto = 17 ∧ pkt.src.text ≠ loopback ∧ pkt.sport = 53

instance (pkt : Queued) : Decidable (IsAnswer pkt) := by unfold IsAnswer; infer_instance

/-- the verdict, the server after the packet, and the response if one is sent -/
def handlePacket (scapy : Scapy) (e : RequestEnv) (pkt : Queued) (s : Server) :
    Option (Verdict × Server × Option Reply) :=
  if pkt.proto = 17 ∧ pkt.src.text ≠ loopback then
    if pkt.sport = 53 then
      (natExchange e pkt.dst.text s).map fun (natreply, s') => (.drop, s', handleDns scapy natreply pkt)
    else some (.drop, s, none)
  else some (.drop, s, none)

/-- the filter and the server, with the verdicts given and the responses sent so far -/
structure Node where
  srv : Server
  verdicts : List Verdict
  sent : List Reply

inductive NodeOp where
  | server (o : Op)
  /-- a packet, and what the server reads from outside should it get an ADD -/
  | packet (pkt : Queued) (e : RequestEnv)

def nodeStep (scapy : Scapy) (x : Node) : NodeOp → Option Node
  | .server o => (step x.srv o).map fun srv => { x with srv := srv }
  | .packet pkt e =>
    (handlePacket scapy e pkt x.srv).map fun (v, srv, reply) => ⟨srv, x.verdicts ++ [v], x.sent ++ reply.toList⟩

/-! ## Addresses -/

/-- the four bytes of an address are read as its `in_addr` -/
theorem loadWord_octets {mem : Mem} {ip : IPv4} {rest : List Byte} (h : Holds mem 0 (octets ip ++ rest)) :
    loadWord 0 mem = inAddr ip := by
  have hbytes := (holds_append.1 h).1
  have h0 : mem 0 = BitVec.ofNat 8 ip.a := hbytes.getElem_front (k := 0) (by simp [octets])
  have h1 : mem 1 = BitVec.ofNat 8 ip.b := hbytes.getElem_front (k := 1) (by simp [octets])
  have h2 : mem 2 = BitVec.ofNat 8 ip.c := hbytes.getElem_front (k := 2) (by simp [octets])
  have h3 : mem 3 = BitVec.ofNat 8 ip.d := hbytes.getElem_front (k := 3) (by simp [octets])
  rw [loadWord, inAddr, h0, h1, h2, h3]

/-! ## What query_dns reads of a response -/

/-- a name that is written out -/
theorem nameAt_wires {message : List Byte} {labels : List Label} {front rest : List Byte}
    (h : message = front ++ (wires labels ++ ([0] ++ rest))) :
    NameAt message front.length labels ((wires labels).length + 1) := by
  induction labels generalizing front with
  | nil =>
    apply NameAt.root
    rw [h, List.drop_left]
    exact List.prefix_append [0] rest
  | cons l labels ih =>
    have hwire : wires (l :: labels) = l.wire ++ wires labels := rfl
    have hnext : message = (front ++ l.wire) ++ (wires labels ++ ([0] ++ rest)) := by
      rw [h, hwire, List.append_assoc, List.append_assoc]
    have hrest := ih hnext
    rw [List.length_append] at hrest
    have hlen : (wires (l :: labels)).length + 1 = l.wire.length + ((wires labels).length + 1) := by
      rw [hwire, List.length_append]
      omega
    rw [hlen]
    refine .label ?_ hrest
    rw [h, List.drop_left, hwire, List.append_assoc]
    exact List.prefix_append l.wire _

/-- query_dns, asked for this question, reads these bytes as an A record with this address and TTL -/
def ReadsAs (qd : DnsQR) (bytes : List Byte) (ip : IPv4) (ttl : ℤ) : Prop :=
  ∀ u id, ∃ fuel rec, rec.answer = (inAddr ip, BitVec.ofInt 32 ttl) ∧
    ∀ fuel', fuel ≤ fuel' → queryDns fuel' u id qd.qname.text qd.qtype (some bytes) = some (some rec)

/-- the record that is in all three sections -/
def recordBytes (name : Hostname) (ip : IPv4) (ttl : ℤ) : List Byte :=
  wires name.labels ++ [0] ++ (htons tA ++ (htons 1 ++ (htonl (BitVec.ofInt 32 ttl) ++ htons 4)) ++ octets ip)

theorem length_recordBytes (name : Hostname) (ip : IPv4) (ttl : ℤ) :
    (recordBytes name ip ttl).length = (wires name.labels).length + 15 := by
  simp [recordBytes, htons, htonl, octets]

/-- the response as query_dns sees it: behind the first answer come the other sections -/
def responseParts (rd : BitVec 1) (id : BitVec 16) (qd : DnsQR) (ip : IPv4) (ttl : ℤ) : AddressParts where
  id := id
  flags := 1#1 ++ 0#4 ++ 0#2 ++ rd ++ 0#4 ++ 0#4
  ansCount := 1
  authCount := 1
  addCount := 1
  owner := wires qd.qname.labels ++ [0]
  cls := 1
  ttl := BitVec.ofInt 32 ttl
  rdata := octets ip
  rest := recordBytes qd.qname ip ttl ++ recordBytes qd.qname ip ttl

theorem responseParts_answered (rd : BitVec 1) (id : BitVec 16) (qd : DnsQR) (ip : IPv4) (ttl : ℤ) :
    (responseParts rd id qd ip ttl).ansCount ≠ 0 := by simp [responseParts]

theorem responseParts_named (rd : BitVec 1) (id : BitVec 16) (qd : DnsQR) (ip : IPv4) (ttl : ℤ) :
    NameAt ((responseParts rd id qd ip ttl).datagram qd.qname qd.qtype) (recordAt (wires qd.qname.labels).length)
      qd.qname.labels (responseParts rd id qd ip ttl).owner.length := by
  let p := responseParts rd id qd ip ttl
  let front := p.header ++ (wires qd.qname.labels ++ [0] ++ qinfo qd.qtype)
  have hfront : front.length = recordAt (wires qd.qname.labels).length := by
    simp only [front, AddressParts.header, htons, qinfo, recordAt, List.length_append, List.length_cons,
      List.length_nil]
    omega
  have howner : (wires qd.qname.labels).length + 1 = p.owner.length := by simp [p, responseParts]
  have hsplit : p.datagram qd.qname qd.qtype =
      front ++ (wires qd.qname.labels ++ ([0] ++ (p.fixed ++ (p.rdata ++ p.rest)))) := by
    simp [front, p, AddressParts.datagram, responseParts]
  have hname := nameAt_wires hsplit
  rwa [hfront, howner] at hname

theorem DnsQR.plain_labels (qd : DnsQR) : ∀ l ∈ qd.qname.labels, ∀ b ∈ l.bytes, PlainByte b :=
  fun l hl b hb => (qd.qname.plain l hl b hb).1

theorem responseParts_shortData (rd : BitVec 1) (id : BitVec 16) (qd : DnsQR) (ip : IPv4) (ttl : ℤ) :
    (responseParts rd id qd ip ttl).rdata.length < 0xff00 := by
  have hlen : (octets ip).length = 4 := rfl
  simp only [responseParts, hlen]
  omega

theorem responseParts_fits (rd : BitVec 1) (id : BitVec 16) (qd : DnsQR) (ip : IPv4) (ttl : ℤ) :
    ((responseParts rd id qd ip ttl).datagram qd.qname qd.qtype).length ≤ bigBufferSize := by
  have hshort := qd.qname.short
  have hlen : ((responseParts rd id qd ip ttl).datagram qd.qname qd.qtype).length =
      4 * (wires qd.qname.labels).length + 62 := by
    simp only [AddressParts.datagram, AddressParts.header, AddressParts.fixed, responseParts, qinfo, octets, htons,
      htonl, List.length_append, List.length_cons, List.length_nil, length_recordBytes]
    omega
  rw [hlen]
  unfold bigBufferSize
  omega

/-- **The response is well formed**, to a query of class IN. -/
def response (rd : BitVec 1) (id : BitVec 16) (qd : DnsQR) (ip : IPv4) (ttl : ℤ) : AddressResponse qd.qname qd.qtype where
  toAddressParts := responseParts rd id qd ip ttl
  answered := responseParts_answered rd id qd ip ttl
  labels := qd.qname.labels
  named := responseParts_named rd id qd ip ttl
  plain := qd.plain_labels
  short := qd.qname.short
  shortData := responseParts_shortData rd id qd ip ttl
  fits := responseParts_fits rd id qd ip ttl

/-- what is sent for an answer -/
theorem handleDns_eq {scapy : Scapy} (hscapy : WritesRfc1035 scapy) {pkt : Queued} {qd : DnsQR}
    (hqd : pkt.question = some qd) (hclass : qd.qclass = 1) (ip : IPv4) {ttl : ℤ} (h0 : 0 ≤ ttl) (hlt : ttl < 2 ^ 32) :
    ∃ rd, handleDns scapy (ip.text, ttl) pkt =
      some ⟨pkt.src, pkt.dst, pkt.sport, pkt.dport, (response rd pkt.id qd ip ttl).bytes⟩ := by
  let rr : DnsRR := ⟨qd.qname, ttl, 4, ip.text⟩
  let dns : Dns := ⟨pkt.id, 1, 0, 1, 1, 1, qd, rr, rr, rr⟩
  have hof : rr.IsOf ip := ⟨rfl, h0, hlt⟩
  obtain ⟨rd, hbytes⟩ := hscapy dns ip ip ip hof hof hof
  have hwire : dns.wire rd ip ip ip = (response rd pkt.id qd ip ttl).bytes := by
    simp [dns, rr, Dns.wire, Dns.header, Dns.flags, DnsQR.wire, DnsRR.wire, hclass, AddressResponse.bytes, response,
      responseParts, AddressParts.datagram, AddressParts.header, AddressParts.fixed, qinfo, recordBytes, octets]
  refine ⟨rd, ?_⟩
  have hsent : scapy ⟨pkt.id, 1, 0, 1, 1, 1, qd, ⟨qd.qname, ttl, 4, ip.text⟩, ⟨qd.qname, ttl, 4, ip.text⟩,
      ⟨qd.qname, ttl, 4, ip.text⟩⟩ = some (response rd pkt.id qd ip ttl).bytes := hwire ▸ hbytes
  simp only [handleDns, hqd, hsent, Option.bind_eq_bind, Option.bind_some]

/-- **What was built is read.** -/
theorem response_decodes (rd : BitVec 1) (id : BitVec 16) (qd : DnsQR) (ip : IPv4) (ttl : ℤ) :
    ReadsAs qd (response rd id qd ip ttl).bytes ip ttl := by
  intro u qid
  obtain ⟨fuel, rec, hdec, hread⟩ := query_decodes (response rd id qd ip ttl) u qid
  refine ⟨fuel, rec, ?_, hread⟩
  have haddr : loadWord 0 rec.rdata = inAddr ip := loadWord_octets hdec.rdata
  have httl : rec.resource.ttl = BitVec.ofInt 32 ttl := by
    rw [hdec.resource]
    rfl
  rw [ResRecord.answer, haddr, httl]

/-! ## The exchange with the server -/

/-- an answer to ADD: a drawn address, and what is left of a lease -/
theorem manipulateMapping_lease {ip : Text} {e : AddEnv} {s s' : Server} {sm : SuccessMapping} (hs : Drawn s)
    (h : manipulateMapping ip e s = some (sm, s')) :
    (∃ rand, sm.mappedIP = (fluxIp rand).text) ∧ 0 < sm.mapTTL ∧ sm.mapTTL ≤ expirationTimeSeconds := by
  rcases manipulateMapping_some h with ⟨m, hrun, -, rfl, -⟩ | ⟨pub, now, now', -, hdraw, rfl, -⟩
  · obtain ⟨hnow, hm, -, hfresh, -⟩ := runningLease_some hrun
    obtain ⟨hpast, rand, hpub⟩ := hs m hm
    refine ⟨⟨rand, hpub.trans (fluxIp_text rand).symm⟩, ?_, ?_⟩
    · exact sub_pos.2 hfresh
    · have hage : m.time ≤ s'.now := by omega
      exact sub_le_self _ (sub_nonneg.2 hage)
  · obtain ⟨rand, hpub⟩ := (drawAddress_some hdraw).2.1
    have hpos : 0 < expirationTimeSeconds := by decide
    exact ⟨⟨rand, hpub.trans (fluxIp_text rand).symm⟩, hpos, le_rfl⟩

/-- **An exchange is one ADD of the server.** -/
theorem natExchange_eq {ip : IPv4} (h12 : ip.text.length ≤ 12) (e : RequestEnv) {s : Server} (hs : Drawn s) :
    natExchange e ip.text s = (manipulateMapping ip.text e.add s).map fun (sm, s') =>
      ((sm.mappedIP, sm.mapTTL),
        { s' with acks := s'.acks ++ [.lease (network ip) sm.mappedIP sm.mapTTL s'.now] }) := by
  have hmessage : addMessage ip.text = Request.message ⟨.add, ip⟩ := rfl
  obtain ⟨hd, hok⟩ := dispatch_message (r := ⟨.add, ip⟩) h12 e.freed
  have hnetwork : ispPrefix e.add.uninit ip.text = network ip := ispPrefix_address e.add.uninit ip
  simp only [Request.dispatch] at hd
  simp only [natExchange, hmessage, recvAll_message, handleRequest, hd, hok, hnetwork, Option.bind_eq_bind]
  cases hm : manipulateMapping ip.text e.add s with
  | none => rfl
  | some r =>
    have hsome : manipulateMapping ip.text e.add s = some (r.1, r.2) := hm
    obtain ⟨⟨rand, hpub⟩, hpos, hle⟩ := manipulateMapping_lease hs hsome
    obtain ⟨ttl, httl⟩ := Int.eq_ofNat_of_zero_le hpos.le
    have hplain : ∀ c ∈ r.1.mappedIP, IsPlain c := by
      rw [hpub]
      exact fun c hc => isPlain_of_mem_text hc
    have hlen : r.1.mappedIP.length + (decimal ttl).length + 5 ≤ recvLimit .add := by
      have hdigit : (decimal ttl).length = 1 := length_decimal_digit (by unfold expirationTimeSeconds at hle; omega)
      have hflux := length_fluxAddress rand
      calc
        r.1.mappedIP.length + (decimal ttl).length + 5 = (fluxAddress rand).length + 1 + 5 := by
          rw [hpub, fluxIp_text, hdigit]
        _ ≤ 25 := by omega
    have hread := natUpdate_ackText ttl hplain hlen
    simp only [Option.map_some, Option.bind_some, httl, hread, if_true]

theorem natExchange_some {ip : IPv4} (h12 : ip.text.length ≤ 12) {e : RequestEnv} {s s' : Server}
    {natreply : Text × ℤ} (hs : Drawn s) (h : natExchange e ip.text s = some (natreply, s')) :
    step s (.add ip.text e.add) = some s' ∧ ∃ rand, natreply.1 = (fluxIp rand).text ∧ 0 < natreply.2 ∧
      natreply.2 ≤ expirationTimeSeconds ∧
      s'.acks = s.acks ++ [.lease (network ip) (fluxIp rand).text natreply.2 s'.now] := by
  rw [natExchange_eq h12 e hs, Option.map_eq_some_iff] at h
  obtain ⟨⟨sm, t⟩, hm, heq⟩ := h
  simp only [Prod.mk.injEq] at heq
  obtain ⟨rfl, rfl⟩ := heq
  obtain ⟨⟨rand, hpub⟩, hpos, hle⟩ := manipulateMapping_lease hs hm
  refine ⟨?_, rand, hpub, hpos, hle, ?_⟩
  · have hnetwork : ispPrefix e.add.uninit ip.text = network ip := ispPrefix_address e.add.uninit ip
    simp only [step, hm, Option.map_some, hnetwork]
  · have hacks : t.acks = s.acks := by
      rcases manipulateMapping_some hm with ⟨m, -, -, -, ht⟩ | ⟨pub, now, now', -, -, -, ht⟩
      · rw [ht]
      · rw [ht]
        rfl
    simp only [hacks, hpub]

/-! ## Runs -/

/-- the response stands in for the answer, with a lease acknowledged for the destination's /26 -/
structure Replaces (acks : List Ack) (pkt : Queued) (reply : Reply) : Prop where
  src : reply.src = pkt.src
  dst : reply.dst = pkt.dst
  sport : reply.sport = pkt.sport
  dport : reply.dport = pkt.dport
  leased : ∃ qd rand ttl sent, pkt.question = some qd ∧ 0 < ttl ∧ ttl ≤ expirationTimeSeconds ∧
    Ack.lease (network pkt.dst) (fluxIp rand).text ttl sent ∈ acks ∧ ReadsAs qd reply.dns (fluxIp rand) ttl

theorem Replaces.mono {acks acks' : List Ack} {pkt : Queued} {reply : Reply} (h : Replaces acks pkt reply)
    (hle : acks <+: acks') : Replaces acks' pkt reply := by
  obtain ⟨qd, rand, ttl, sent, hqd, hpos, hmax, hack, hread⟩ := h.leased
  exact ⟨h.src, h.dst, h.sport, h.dport, qd, rand, ttl, sent, hqd, hpos, hmax, hle.subset hack, hread⟩

/-- an answer goes to an address of at most 12 characters, and its question is of class IN -/
def Plain : NodeOp → Prop
  | .packet pkt _ => IsAnswer pkt → pkt.dst.text.length ≤ 12 ∧ ∀ qd, pkt.question = some qd → qd.qclass = 1
  | .server _ => True

/-- the packet that is queued -/
def NodeOp.queued : NodeOp → Option Queued
  | .packet pkt _ => some pkt
  | .server _ => none

/-- the answers with a question -/
def answered (ops : List NodeOp) : List Queued :=
  (ops.filterMap NodeOp.queued).filter fun pkt => IsAnswer pkt ∧ pkt.question.isSome

/-- what a packet does to the server, and what is sent for it -/
theorem handlePacket_some {scapy : Scapy} (hscapy : WritesRfc1035 scapy) {e : RequestEnv} {pkt : Queued}
    {s s' : Server} {v : Verdict} {reply : Option Reply} (hplain : Plain (.packet pkt e)) (hs : Drawn s)
    (h : handlePacket scapy e pkt s = some (v, s', reply)) :
    v = .drop ∧ (s' = s ∨ step s (.add pkt.dst.text e.add) = some s') ∧
      List.Forall₂ (Replaces s'.acks) ([pkt].filter fun pkt => IsAnswer pkt ∧ pkt.question.isSome) reply.toList := by
  by_cases ha : IsAnswer pkt
  · obtain ⟨h12, hclass⟩ := hplain ha
    rw [handlePacket, if_pos ⟨ha.1, ha.2.1⟩, if_pos ha.2.2, Option.map_eq_some_iff] at h
    obtain ⟨⟨natreply, t⟩, hx, heq⟩ := h
    simp only [Prod.mk.injEq] at heq
    obtain ⟨rfl, rfl, rfl⟩ := heq
    obtain ⟨hstep, rand, hpub, hpos, hmax, hacks⟩ := natExchange_some h12 hs hx
    refine ⟨rfl, Or.inr hstep, ?_⟩
    cases hqd : pkt.question with
    | none => simp [handleDns, hqd]
    | some qd =>
      have hlt : natreply.2 < 2 ^ 32 := lt_of_le_of_lt hmax (by decide)
      obtain ⟨rd, hreply⟩ := handleDns_eq hscapy hqd (hclass qd hqd) (fluxIp rand) hpos.le hlt
      rw [← hpub] at hreply
      rw [hreply]
      simp only [List.filter_singleton, ha, hqd, Option.isSome_some, and_self, decide_true, cond_true,
        Option.toList_some]
      refine List.Forall₂.cons ⟨rfl, rfl, rfl, rfl, qd, rand, natreply.2, t.now, hqd, hpos, hmax, ?_, ?_⟩ .nil
      · rw [hacks]
        exact List.mem_append_right _ (List.mem_singleton_self _)
      · exact response_decodes rd pkt.id qd (fluxIp rand) natreply.2
  · have hnone : handlePacket scapy e pkt s = some (.drop, s, none) := by
      unfold handlePacket
      split_ifs with hudp hport
      · exact absurd ⟨hudp.1, hudp.2, hport⟩ ha
      · rfl
      · rfl
    rw [hnone] at h
    simp only [Option.some.injEq, Prod.mk.injEq] at h
    obtain ⟨rfl, rfl, rfl⟩ := h
    refine ⟨rfl, Or.inl rfl, ?_⟩
    simp [ha]

/-- what a run of the filter adds -/
theorem node_run {scapy : Scapy} (hscapy : WritesRfc1035 scapy) {ops : List NodeOp} {x y : Node}
    (hplain : ∀ o ∈ ops, Plain o) (hdrawn : Drawn x.srv) (hrun : run (nodeStep scapy) x ops = some y) :
    x.srv.acks <+: y.srv.acks ∧
      y.verdicts = x.verdicts ++ (ops.filterMap NodeOp.queued).map (fun _ => .drop) ∧
      ∃ sent, y.sent = x.sent ++ sent ∧ List.Forall₂ (Replaces y.srv.acks) (answered ops) sent := by
  induction ops generalizing x with
  | nil =>
    simp only [run_nil, Option.some.injEq] at hrun
    subst hrun
    exact ⟨List.prefix_refl _, by simp, [], by simp, .nil⟩
  | cons o ops ih =>
    obtain ⟨ho, hrest⟩ := List.forall_mem_cons.1 hplain
    rw [run_cons, Option.bind_eq_some_iff] at hrun
    obtain ⟨z, hz, hrun⟩ := hrun
    cases o with
    | server o =>
      simp only [nodeStep, Option.map_eq_some_iff] at hz
      obtain ⟨srv, hstep, rfl⟩ := hz
      obtain ⟨hacks, hverdicts, sent, hsent, hall⟩ := ih hrest (drawn_step _ _ _ hdrawn hstep) hrun
      exact ⟨(acks_step hstep).trans hacks, hverdicts, sent, hsent, hall⟩
    | packet pkt e =>
      simp only [nodeStep, Option.map_eq_some_iff] at hz
      obtain ⟨⟨v, srv, reply⟩, hpkt, rfl⟩ := hz
      obtain ⟨rfl, hsrv, hreply⟩ := handlePacket_some hscapy ho hdrawn hpkt
      have hkeep : Drawn srv ∧ x.srv.acks <+: srv.acks := by
        rcases hsrv with rfl | hstep
        · exact ⟨hdrawn, List.prefix_refl _⟩
        · exact ⟨drawn_step _ _ _ hdrawn hstep, acks_step hstep⟩
      obtain ⟨hacks, hverdicts, sent, hsent, hall⟩ := ih hrest hkeep.1 hrun
      refine ⟨hkeep.2.trans hacks, ?_, reply.toList ++ sent, by rw [hsent, List.append_assoc], ?_⟩
      · rw [hverdicts, List.append_assoc]
        rfl
      · -- later acknowledgements leave what was acknowledged for this packet
        have hfirst := hreply.imp fun _ _ hr => Replaces.mono hr hacks
        have hsplit : answered (.packet pkt e :: ops) =
            ([pkt].filter fun pkt => IsAnswer pkt ∧ pkt.question.isSome) ++ answered ops := by
          rw [answered, answered, List.filterMap_cons, ← List.filter_append]
          rfl
        rw [hsplit]
        exact List.rel_append hfirst hall

def www : Hostname := ⟨[⟨[119, 119, 119], by decide, by decide⟩], by decide, by decide, by decide⟩

/-- the DNS server answers 10.4.11.17 -/
def dnsAnswer : Queued :=
  ⟨17, ⟨10, 4, 11, 193⟩, ⟨10, 4, 11, 17⟩, 53, 40000, 7, some ⟨www, tA, 1⟩⟩

/-- nothing takes time, and the first draw is 195 -/
def drawsFirst : RequestEnv := ⟨quiet, ⟨[], 0, 0, [⟨0, 0⟩], 0⟩, 0⟩

/-- the address whose dotted decimal form it is -/
def inetAton (s : Text) : Option IPv4 :=
  match scanDotted 4 s with
  | [a, b, c, d] =>
    let ip : IPv4 := ⟨Fin.ofNat 256 a.toNat, Fin.ofNat 256 b.toNat, Fin.ofNat 256 c.toNat, Fin.ofNat 256 d.toNat⟩
    if ip.text = s then some ip else none
  | _ => none

theorem inetAton_text (ip : IPv4) : inetAton ip.text = some ip := by
  have hscan := scanDotted_text ip [] (by simp)
  rw [List.append_nil] at hscan
  simp [inetAton, hscan]

/-- the address that a record is of -/
def DnsRR.address (rr : DnsRR) : Option IPv4 := if 0 ≤ rr.ttl ∧ rr.ttl < 2 ^ 32 then inetAton rr.rdata else none

theorem DnsRR.address_of {rr : DnsRR} {ip : IPv4} (h : rr.IsOf ip) : rr.address = some ip := by
  rw [DnsRR.address, if_pos h.2, h.1, inetAton_text]

/-- a writer of messages, with RD 0 -/
def plainScapy : Scapy := fun d => do
  let an ← d.an.address
  let ns ← d.ns.address
  let ar ← d.ar.address
  some (d.wire 0 an ns ar)

theorem plainScapy_writes : WritesRfc1035 plainScapy := by
  intro d an ns ar han hns har
  refine ⟨0, ?_⟩
  simp [plainScapy, DnsRR.address_of han, DnsRR.address_of hns, DnsRR.address_of har]

end NetSec.DnsFilter
