/-
The hop count filter: handle_dns and handle_packet (DNS/DNSHopCount.py, lines 27-71). Does every queued packet get a
verdict?

Of a packet the filter reads the protocol, the source, the TTL, and of a UDP packet the destination port. Its state are
the two dictionaries `hops` and `banned`, by source as a text. `handleDns` gives what handle_dns returns (True, False,
or nothing), the message it sends to the NAT server, and the dictionaries after it; every NAT_update succeeds.
`handlePacket` gives the calls of packet.accept and packet.drop.

`OneVerdict`: exactly one of the two is called, and accept is the one for a packet that handle_dns judges exactly when
it returns True. But there is no drop for a packet that it does not: where TCPHopCount.py has `else: packet.drop()`,
this has nothing, and neither a first-seen nor a suspicious source gets an answer (`first_packet_no_verdict`).

- `handleDns_true_iff`: True is returned exactly for a known source within its tolerance;
- `one_verdict_iff`: in every run, from any tables, every packet gets one verdict exactly when every packet that
  handle_dns judges comes from a source that is in `hops`, within the tolerance (`Trusted`).
-/
import NetSec.NatServer.Framing

namespace NetSec.Filter

open NetSec.NatServer NetSec.Run NetSec.Text

/-! ## Model -/

structure Packet where
  proto : Fin 256
  src : IPv4
  ttl : Fin 256
  /-- of a UDP packet -/
  dport : Fin 65536
deriving DecidableEq, Repr

structure Tables where
  hops : Text → Option ℕ
  banned : Text → Bool

inductive Verdict where
  | accept
  | drop
deriving DecidableEq, Repr

/-- `math.ceil(ttl * 0.05)`; the rounding of the product changes it for no TTL up to 255 -/
def hopDelta (ttl : ℕ) : ℕ := (ttl + 19) / 20

/-- the comparison of handle_dns -/
def hopsMatch (hopSaved hopCurr : ℕ) : Bool :=
  hopCurr < hopSaved + hopDelta hopCurr && (hopSaved : ℤ) - hopDelta hopCurr < hopCurr

/-- what NAT_update sends -/
def banMessage (ip : Text) : Text := "BAN;".toList ++ ip

structure Handled where
  result : Option Bool
  sent : Option Text
  tables : Tables

def handleDns (pkt : Packet) (t : Tables) : Handled :=
  let src := pkt.src.text
  match t.hops src with
  | some hopSaved =>
    if hopsMatch hopSaved pkt.ttl then ⟨some true, none, t⟩
    else if t.banned src then ⟨some false, none, t⟩
    else ⟨some false, some (banMessage src), { t with banned := Function.update t.banned src true }⟩
  | none => ⟨none, none, { t with hops := Function.update t.hops src (some pkt.ttl) }⟩

def loopback : Text := "127.0.0.1".toList

/-- handle_packet hands the packet to handle_dns -/
def Judged (pkt : Packet) : Prop := pkt.proto = 17 ∧ pkt.src.text ≠ loopback ∧ pkt.dport = 53

instance (pkt : Packet) : Decidable (Judged pkt) := by unfold Judged; infer_instance

/-- the verdicts given, in order, and what handle_dns did if it was called -/
def handlePacket (pkt : Packet) (t : Tables) : List Verdict × Option Handled :=
  if pkt.proto = 17 ∧ pkt.src.text ≠ loopback then
    if pkt.dport = 53 then
      let dns := handleDns pkt t
      (if dns.result = some true then [.accept] else [], some dns)
    else ([.drop], none)
  else ([.accept], none)

/-- the tables after a packet -/
def packetStep (t : Tables) (pkt : Packet) : Option Tables :=
  some (((handlePacket pkt t).2.map Handled.tables).getD t)

/-! ## Verdicts -/

/-- exactly one verdict, and of a judged packet accept exactly when handle_dns returned True -/
def OneVerdict (t : Tables) (pkt : Packet) : Prop :=
  (handlePacket pkt t).1.length = 1 ∧
    ∀ dns, (handlePacket pkt t).2 = some dns → (Verdict.accept ∈ (handlePacket pkt t).1 ↔ dns.result = some true)

/-- if handle_dns judges the packet, its source is known and its TTL is within the tolerance -/
def Trusted (t : Tables) (pkt : Packet) : Prop :=
  Judged pkt → ∃ hopSaved, t.hops pkt.src.text = some hopSaved ∧ hopsMatch hopSaved pkt.ttl = true

theorem handlePacket_judged {pkt : Packet} (h : Judged pkt) (t : Tables) :
    handlePacket pkt t = (if (handleDns pkt t).result = some true then [.accept] else [], some (handleDns pkt t)) := by
  rw [handlePacket, if_pos ⟨h.1, h.2.1⟩, if_pos h.2.2]

theorem handlePacket_of_not_judged {pkt : Packet} (h : ¬ Judged pkt) (t : Tables) :
    ∃ v, handlePacket pkt t = ([v], none) := by
  unfold handlePacket
  split_ifs with hudp hport
  · exact absurd ⟨hudp.1, hudp.2, hport⟩ h
  · exact ⟨.drop, rfl⟩
  · exact ⟨.accept, rfl⟩

/-- **True is returned exactly for a known source within its tolerance.** -/
theorem handleDns_true_iff (pkt : Packet) (t : Tables) : (handleDns pkt t).result = some true ↔
    ∃ hopSaved, t.hops pkt.src.text = some hopSaved ∧ hopsMatch hopSaved pkt.ttl = true := by
  unfold handleDns
  cases hhops : t.hops pkt.src.text with
  | none => simp [hhops]
  | some hopSaved =>
    simp only [hhops, Option.some.injEq, exists_eq_left']
    split_ifs with hm hb
    · simp [hm]
    · simp [hm]
    · simp [hm]

theorem one_verdict (t : Tables) (pkt : Packet) : OneVerdict t pkt ↔ Trusted t pkt := by
  by_cases h : Judged pkt
  · have htrue := handleDns_true_iff pkt t
    unfold OneVerdict Trusted
    rw [handlePacket_judged h]
    by_cases hr : (handleDns pkt t).result = some true
    · refine iff_of_true ⟨by simp [hr], ?_⟩ (fun _ => htrue.1 hr)
      intro dns hdns
      rw [← Option.some.inj hdns]
      simp [hr]
    · refine iff_of_false ?_ (fun ht => hr (htrue.2 (ht h)))
      simp [hr]
  · obtain ⟨v, hv⟩ := handlePacket_of_not_judged h t
    refine iff_of_true ?_ (fun hj => absurd hj h)
    simp [OneVerdict, hv]

/-- **Every packet gets one verdict exactly when every judged packet is trusted.** For every sequence of packets, from
any tables. -/
theorem one_verdict_iff (t : Tables) (pkts : List Packet) :
    EveryStep packetStep (fun t pkt _ => OneVerdict t pkt) t pkts ↔
      EveryStep packetStep (fun t pkt _ => Trusted t pkt) t pkts := by
  refine everyStep_iff packetStep (I := fun _ => True) ?_ trivial pkts
  intro t pkt t' _ _
  exact ⟨one_verdict t pkt, fun _ => trivial⟩

def emptyTables : Tables := ⟨fun _ => none, fun _ => false⟩

/-- a UDP packet from 10.4.11.17 to port 53 -/
def dnsPacket (ttl : Fin 256) : Packet := ⟨17, ⟨10, 4, 11, 17⟩, ttl, 53⟩

/-- **A first packet gets no verdict.** Neither does one that fails the check afterwards. -/
theorem first_packet_no_verdict :
    ¬ EveryStep packetStep (fun t pkt _ => OneVerdict t pkt) emptyTables [dnsPacket 64] ∧
      ∃ t, packetStep emptyTables (dnsPacket 64) = some t ∧ (handlePacket (dnsPacket 64) emptyTables).1 = [] ∧
        (handlePacket (dnsPacket 10) t).1 = [] := by
  refine ⟨?_, _, rfl, by decide, by decide⟩
  intro h
  have hone := (h [] (dnsPacket 64) (by simp) emptyTables _ rfl rfl).1
  revert hone
  decide

/-- ports are numbers -/
instance portNeZero : NeZero 65536 := ⟨by decide⟩

end NetSec.Filter
